import AnfWasm.Proofs.Lowering.Acceptance
import AnfWasm.Proofs.Lowering.Operations

/-!
# Allocation

An object is written word by word at the heap pointer, which is then moved past it.
`WritesObject fr ls fields s s'` says what this does to a store, down to the single byte.
`Allocated s places s'` says that objects were made at these places one after the other; what is
done in between may write to the memory but does not move the heap pointer.

* `exists_allocation`       the code writes the object, leaves its address and changes nothing else;
* `Allocated.apart`         objects do not overlap;
* `WritesObject.projects`   projections find the elements of a tuple whose bytes are still there.

A memory can be as large as the address space.  When its last word is taken the heap pointer comes
round to zero, and only then can objects meet (`brimful_comes_round`).
-/

namespace AnfWasm.Lowering

open Wasm

variable {fr : Frame} {ls : List Word} {fields : List Field} {s s' : Store}

/-! ### words of fields -/

/-- the word of a field, if its operand has one -/
def Field.word? (fr : Frame) (ls : List Word) : Field → Option Word
  | .const n => some n
  | .imm a => operandWord? fr ls a

theorem fieldWord_of_some {f : Field} {u : Word} (h : f.word? fr ls = some u) :
    FieldWord fr ls f u := by
  cases f with
  | const n =>
    obtain rfl : n = u := Option.some.inj h
    exact fieldWord_const n
  | imm a => exact fieldWord_imm (operandWord_of_some h)

theorem knows_of_isSome {x : Ident} (h : (operandWord? fr ls (.id x)).isSome) :
    fr.Knows x.stamp := by
  obtain ⟨u, hu⟩ := Option.isSome_iff_exists.mp h
  obtain ⟨i, hi, -⟩ := Option.bind_eq_some_iff.mp hu
  exact ⟨i, hi⟩

theorem exists_words (h : ∀ f ∈ fields, (f.word? fr ls).isSome) :
    ∃ ws, List.Forall₂ (fun f w => f.word? fr ls = some w) fields ws := by
  induction fields with
  | nil => exact ⟨[], .nil⟩
  | cons f fields ih =>
    obtain ⟨hf, hfields⟩ := List.forall_mem_cons.mp h
    obtain ⟨w, hw⟩ := Option.isSome_iff_exists.mp hf
    obtain ⟨ws, hws⟩ := ih hfields
    exact ⟨w :: ws, .cons hw hws⟩

/-! ### one object -/

/-- where an object lies -/
structure Extent where
  start : Nat
  words : Nat

namespace Extent

/-- the addresses of its bytes -/
instance : Membership Nat Extent := ⟨fun e a => e.start ≤ a ∧ a < e.start + 4 * e.words⟩

/-- no byte belongs to both -/
def Apart (e e' : Extent) : Prop := ∀ a ∈ e, a ∉ e'

/-- the place of an object of so many words that is made next -/
def next (s : Store) (words : Nat) : Extent := ⟨address s.heap, words⟩

theorem mem_iff {e : Extent} {a : Nat} : a ∈ e ↔ e.start ≤ a ∧ a < e.start + 4 * e.words :=
  Iff.rfl

theorem mem_next {n a : Nat} :
    a ∈ next s n ↔ address s.heap ≤ a ∧ a < address s.heap + 4 * n := Iff.rfl

theorem apart_of_le {e e' : Extent} (h : e'.words = 0 ∨ e.start + 4 * e.words ≤ e'.start) :
    e.Apart e' := by
  intro a ha ha'
  rw [mem_iff] at ha ha'
  omega

end Extent

/-- **An object is written.**  The heap pointer is a word, so the end of the address space is
zero. -/
structure WritesObject (fr : Frame) (ls : List Word) (fields : List Field) (s s' : Store) :
    Prop where
  word : ∀ i f, fields[i]? = some f →
    f.word? fr ls = some (s'.memory.word (address s.heap + 4 * i))
  heap : s'.heap = .ofNat (address s.heap + 4 * fields.length)
  other : ∀ a, a ∉ Extent.next s fields.length → s'.memory.bytes a = s.memory.bytes a
  size : s'.memory.size = s.memory.size
  trace : s'.trace = s.trace

theorem Allocates.writesObject {code : Code} (h : Allocates fr fields code)
    (hbound : ∀ f ∈ fields, (f.word? fr ls).isSome)
    (hfit : address s.heap + 4 * fields.length ≤ s.memory.size) :
    ∃ s', WritesObject fr ls fields s s' ∧
      ∀ X st, Instr.execAll X code ⟨st, ls⟩ s = .ok ⟨s.heap :: st, ls⟩ s' := by
  obtain ⟨ws, hws⟩ := exists_words hbound
  have hlen := hws.length_eq
  have hruns := fun X st => h.runs (hws.imp fun _ _ => fieldWord_of_some) X st s (hlen ▸ hfit)
  refine ⟨_, ⟨fun i f hf => ?_, ?_, fun a ha => ?_, ?_, ?_⟩, hruns⟩
  · obtain ⟨hi, rfl⟩ := List.getElem?_eq_some_iff.mp hf
    have hi' : i < ws.length := hlen ▸ hi
    rw [s.memory.word_write _ (List.getElem?_eq_getElem hi')]
    exact hws.get hi hi'
  · rw [Int32.ofNat_add, ofNat_address, hlen]
  · refine s.memory.bytes_write_other ?_
    rw [Extent.mem_next, hlen] at ha
    omega
  · exact s.memory.size_write _ _
  · rfl

/-- what the code does where it is known to end -/
theorem writesObject_of_run {fr' : Frame} {code : Code} {X : Targets} {st : List Word}
    {a : Activation} (hbound : ∀ f ∈ fields, (f.word? fr ls).isSome)
    (hfit : address s.heap + 4 * fields.length ≤ s.memory.size)
    (hcode : allocate fields fr = .ok code fr')
    (hrun : Instr.execAll X code ⟨st, ls⟩ s = .ok a s') : WritesObject fr ls fields s s' := by
  obtain ⟨s₁, hw, hruns⟩ := (allocate_ok hcode).1.writesObject hbound hfit
  obtain ⟨-, rfl⟩ := EStateM.Result.ok.inj ((hruns X st).symm.trans hrun)
  exact hw

theorem exists_allocation (hbound : ∀ f ∈ fields, (f.word? fr ls).isSome)
    (hfit : address s.heap + 4 * fields.length ≤ s.memory.size) :
    ∃ code s', allocate fields fr = .ok code fr ∧
      (∀ X st, Instr.execAll X code ⟨st, ls⟩ s = .ok ⟨s.heap :: st, ls⟩ s') ∧
      WritesObject fr ls fields s s' := by
  have hknown : ∀ x, Field.imm (.id x) ∈ fields → fr.Knows x.stamp := fun x hx =>
    knows_of_isSome (hbound _ hx)
  obtain ⟨code, hcode⟩ := allocate_known hknown
  obtain ⟨s', hw, hrun⟩ := (allocate_ok hcode).1.writesObject hbound hfit
  exact ⟨code, s', hcode, hrun, hw⟩

/-- the heap pointer is moved past the object, unless that is the end of the address space -/
theorem WritesObject.address_heap (h : WritesObject fr ls fields s s')
    (hlt : address s.heap + 4 * fields.length < 2 ^ 32) :
    address s'.heap = address s.heap + 4 * fields.length := by
  rw [h.heap, address_ofNat hlt]

/-! ### many objects -/

/-- Objects are made at these places, one after the other. -/
inductive Allocated : Store → List Extent → Store → Prop where
  | done {s : Store} : Allocated s [] s
  | object {s s₁ s' : Store} {fr fr' : Frame} {ls st : List Word} {fields : List Field}
      {code : Code} {X : Targets} {a : Activation} {places : List Extent} :
      (∀ f ∈ fields, (f.word? fr ls).isSome) →
      address s.heap + 4 * fields.length ≤ s.memory.size →
      allocate fields fr = .ok code fr' → Instr.execAll X code ⟨st, ls⟩ s = .ok a s₁ →
      Allocated s₁ places s' → Allocated s (.next s fields.length :: places) s'
  /-- what else is done between two objects; the memory may also grow -/
  | other {s s₁ s' : Store} {places : List Extent} :
      s₁.heap = s.heap → s.memory.size ≤ s₁.memory.size → Allocated s₁ places s' →
      Allocated s places s'

/-- the words of all objects -/
def totalWords : List Extent → Nat
  | [] => 0
  | e :: es => e.words + totalWords es

/-- the heap pointer is told by a number that may be the end of the address space -/
theorem WritesObject.heap_ofNat (h : WritesObject fr ls fields s s') {top : Nat}
    (htop : s.heap = .ofNat top) : s'.heap = .ofNat (top + 4 * fields.length) := by
  rw [h.heap, Int32.ofNat_add, ofNat_address, htop, ← Int32.ofNat_add]

namespace Allocated
variable {places : List Extent}

theorem size_le (h : Allocated s places s') : s.memory.size ≤ s'.memory.size := by
  induction h with
  | done => exact Nat.le_refl _
  | object hbound hfit hcode hrun _ ih =>
    rw [← (writesObject_of_run hbound hfit hcode hrun).size]
    exact ih
  | other _ hsize _ ih => exact Nat.le_trans hsize ih

/-- In a memory that is smaller than the address space there is no way round. -/
theorem total_le (h : Allocated s places s') (hsize : s'.memory.size < 2 ^ 32) :
    address s.heap + 4 * totalWords places ≤ 2 ^ 32 := by
  induction h with
  | done => exact Nat.le_of_lt (address_lt _)
  | @object s s₁ s' _ _ _ _ fields _ _ _ places hbound hfit hcode hrun hrest ih =>
    have hw := writesObject_of_run hbound hfit hcode hrun
    have hle : s.memory.size ≤ s'.memory.size := hw.size ▸ hrest.size_le
    have htop := hw.address_heap (by omega)
    have hrest := ih hsize
    show address s.heap + 4 * (fields.length + totalWords places) ≤ 2 ^ 32
    omega
  | other hheap _ _ ih => exact hheap ▸ ih hsize

/-- Objects lie above the heap pointer that they start from. -/
theorem start_le (h : Allocated s places s') {top : Nat} (htop : s.heap = .ofNat top)
    (htotal : top + 4 * totalWords places ≤ 2 ^ 32) :
    ∀ e ∈ places, e.words = 0 ∨ top ≤ e.start := by
  induction h generalizing top with
  | done => exact fun e he => absurd he List.not_mem_nil
  | @object s s₁ s' _ _ _ _ fields _ _ _ places hbound hfit hcode hrun hrest ih =>
    have hw := writesObject_of_run hbound hfit hcode hrun
    have htotal : top + 4 * (fields.length + totalWords places) ≤ 2 ^ 32 := htotal
    refine List.forall_mem_cons.mpr ⟨?_, fun e he => ?_⟩
    · -- at the end of the address space only empty objects are left
      by_cases hlt : top < 2 ^ 32
      · exact .inr (by rw [Extent.next, htop, address_ofNat hlt])
      · exact .inl (show fields.length = 0 by omega)
    · have hrest := ih (hw.heap_ofNat htop) (by omega) e he
      omega
  | other hheap _ _ ih => exact ih (hheap.trans htop) htotal

theorem apart_of_total (h : Allocated s places s')
    (htotal : address s.heap + 4 * totalWords places ≤ 2 ^ 32) :
    places.Pairwise Extent.Apart := by
  induction h with
  | done => exact .nil
  | @object s s₁ s' _ _ _ _ fields _ _ _ places hbound hfit hcode hrun hrest ih =>
    have hw := writesObject_of_run hbound hfit hcode hrun
    have htop := hw.heap_ofNat (ofNat_address s.heap).symm
    have htotal : address s.heap + 4 * (fields.length + totalWords places) ≤ 2 ^ 32 := htotal
    have hle : address s₁.heap ≤ address s.heap + 4 * fields.length := by
      rw [htop]
      exact address_ofNat_le _
    refine .cons (fun e he => Extent.apart_of_le ?_) (ih (by omega))
    exact hrest.start_le htop (by omega) e he
  | other hheap _ _ ih => exact ih (hheap ▸ htotal)

/-- **Objects do not overlap.** -/
theorem apart (h : Allocated s places s')
    (htotal : s'.memory.size < 2 ^ 32 ∨ address s.heap + 4 * totalWords places ≤ 2 ^ 32) :
    places.Pairwise Extent.Apart :=
  h.apart_of_total (htotal.elim h.total_le id)

end Allocated

/-! ### elements of tuples -/

/-- the bytes are as they were, in a memory that is not smaller -/
structure Extent.Intact (e : Extent) (M M' : Memory) : Prop where
  size : M.size ≤ M'.size
  bytes : ∀ a ∈ e, M'.bytes a = M.bytes a

/-- In the store `t` projections from the address `p` give the elements `args` of a tuple, which
have their words in the frame `fr` with the locals `ls`. -/
def Projects (fr : Frame) (ls : List Word) (args : List Imm) (p : Word) (t : Store) : Prop :=
  ∀ (cs : Callees) (index : UInt32) (e : Imm), args[index.toNat]? = some e →
    ∀ (fr' : Frame) (ls' : List Word) (a : Imm), operandWord? fr' ls' a = some p →
      ∃ code u, lowerComp cs (.tupleGet index a) fr' = .ok code fr' ∧
        operandWord? fr ls e = some u ∧
        ∀ X st, Instr.execAll X code ⟨st, ls'⟩ t = .ok ⟨u :: st, ls'⟩ t

theorem lowerComp_tupleGet {a : Imm} {u : Word} (h : operandWord? fr ls a = some u)
    (cs : Callees) (index : UInt32) :
    ∃ push, Pushes fr a push ∧ lowerComp cs (.tupleGet index a) fr
      = .ok (push ++ [.load (wordSize * (index.toNat + 1))]) fr := by
  have hknown : ∀ x, a = .id x → fr.Knows x.stamp := by
    rintro x rfl
    exact knows_of_isSome (by rw [h]; rfl)
  obtain ⟨push, hpush⟩ := lowerImm_known hknown
  refine ⟨push, (lowerImm_ok hpush).1, ?_⟩
  rw [lowerComp, bind_of_ok hpush]
  rfl

/-- the arity word comes before the elements -/
theorem getElem?_tupleFields {args : List Imm} {i : Nat} {e : Imm} (h : args[i]? = some e) :
    (tupleFields args)[i + 1]? = some (.imm e) := by
  rw [tupleFields, List.getElem?_cons_succ, List.getElem?_map, h]
  rfl

theorem WritesObject.projects {args : List Imm} (h : WritesObject fr ls (tupleFields args) s s')
    (hfit : address s.heap + 4 * (tupleFields args).length ≤ s.memory.size) {t : Store}
    (hkept : (Extent.next s (tupleFields args).length).Intact s'.memory t.memory) :
    Projects fr ls args s.heap t := by
  intro cs index e he fr' ls' a ha
  obtain ⟨push, hpush, hcode⟩ := lowerComp_tupleGet ha cs index
  have hfield := getElem?_tupleFields he
  have hi := (List.getElem?_eq_some_iff.mp hfield).1
  refine ⟨_, _, hcode, h.word _ _ hfield, fun X st => ?_⟩
  have hin : address s.heap + wordSize * (index.toNat + 1) + 4 ≤ t.memory.size := by
    have hsize := hkept.size
    rw [h.size] at hsize
    unfold wordSize
    omega
  rw [Instr.execAll_append_ok (operandWord_of_some ha _ hpush X st t), Instr.execAll_singleton,
    Instr.exec_load hin]
  congr 3
  refine Memory.word_congr fun i hi => hkept.bytes _ ?_
  rw [Extent.mem_next]
  unfold wordSize
  omega

/-! ### the whole -/

/-- **Allocation.**  When all fields are constants or bound to locals and the object fits, the code
writes the object at the heap pointer, leaves its address on the stack, and changes nothing else.
The heap pointer is moved past the object if that is not the end of the address space.  This object
and those that are made later do not overlap if the memory is smaller than the address space, or if
the words of all of them do not reach beyond it.  If it is a tuple then projections from its address
give its elements for as long as its bytes are there. -/
theorem run_allocate (hbound : ∀ f ∈ fields, (f.word? fr ls).isSome)
    (hfit : address s.heap + 4 * fields.length ≤ s.memory.size) :
    ∃ code s', allocate fields fr = .ok code fr ∧
      (∀ X st, Instr.execAll X code ⟨st, ls⟩ s = .ok ⟨s.heap :: st, ls⟩ s') ∧
      WritesObject fr ls fields s s' ∧
      (address s.heap + 4 * fields.length < 2 ^ 32 →
        address s'.heap = address s.heap + 4 * fields.length) ∧
      (∀ places s'', Allocated s' places s'' →
        s''.memory.size < 2 ^ 32 ∨
          address s.heap + 4 * (fields.length + totalWords places) ≤ 2 ^ 32 →
        (.next s fields.length :: places).Pairwise Extent.Apart) ∧
      ∀ args, fields = tupleFields args →
        (∀ cs, lowerComp cs (.tuple args) fr = .ok code fr) ∧
        ∀ t, (Extent.next s fields.length).Intact s'.memory t.memory →
          Projects fr ls args s.heap t := by
  obtain ⟨code, s', hcode, hrun, hw⟩ := exists_allocation hbound hfit
  refine ⟨code, s', hcode, hrun, hw, hw.address_heap, fun places s'' hplaces htotal => ?_, ?_⟩
  · exact (Allocated.object hbound hfit hcode (hrun ⟨fun _ => none, fun _ _ => pure 0⟩ [])
      hplaces).apart htotal
  · rintro args rfl
    refine ⟨fun cs => ?_, fun t hkept => hw.projects hfit hkept⟩
    rw [lowerComp, hcode]

/-- a number and what a parameter holds -/
def couple : List Imm := [.int 7, .id ⟨"x", 4⟩]

/-- the couple at the start of the memory, and a cell behind it -/
theorem run_allocate_couple : ∃ code s',
    (∀ f ∈ tupleFields couple, (f.word? (.ofParams [⟨"x", 4⟩]) [5]).isSome) ∧
    address Store.start.heap + 4 * (tupleFields couple).length ≤ Store.start.memory.size ∧
    allocate (tupleFields couple) (.ofParams [⟨"x", 4⟩]) = .ok code (.ofParams [⟨"x", 4⟩]) ∧
    (∀ X st, Instr.execAll X code ⟨st, [5]⟩ .start = .ok ⟨0 :: st, [5]⟩ s') ∧
    s'.heap = 12 ∧ s'.memory.word 8 = 5 ∧
    (∃ s'', Allocated s' [.next s' 1] s'' ∧ (Extent.next .start 3).Apart (.next s' 1)) ∧
    ∀ cs X, ∃ load, lowerComp cs (.tupleGet 1 (.int 0)) .start = .ok load .start ∧
      Instr.execAll X load ⟨[], []⟩ s' = .ok ⟨[5], []⟩ s' := by
  have hbound : ∀ f ∈ tupleFields couple, (f.word? (.ofParams [⟨"x", 4⟩]) [5]).isSome := by decide
  have hfit : address Store.start.heap + 4 * (tupleFields couple).length
      ≤ Store.start.memory.size := by decide
  obtain ⟨code, s', hcode, hrun, hw, -, hapart, htuple⟩ := run_allocate hbound hfit
  have hheap : s'.heap = 12 := hw.heap
  have hsize : s'.memory.size = 65536 := hw.size
  refine ⟨code, s', hbound, hfit, hcode, hrun, hheap, ?_, ?_, fun cs X => ?_⟩
  · exact (Option.some.inj (hw.word 2 _ rfl)).symm
  · have hbound' : ∀ f ∈ [Field.const 1], (f.word? .start []).isSome := by decide
    have hfit' : address s'.heap + 4 * [Field.const 1].length ≤ s'.memory.size := by
      rw [hheap, hsize]
      decide
    obtain ⟨code', s'', hcode', hrun', hw', -⟩ := run_allocate hbound' hfit'
    have hplaces : Allocated s' [.next s' 1] s'' :=
      .object hbound' hfit' hcode' (hrun' ⟨fun _ => none, fun _ _ => pure 0⟩ []) .done
    have hsmall : s''.memory.size < 2 ^ 32 := by
      rw [hw'.size, hsize]
      decide
    exact ⟨s'', hplaces, List.rel_of_pairwise_cons (hapart _ _ hplaces (.inl hsmall))
      (List.mem_singleton_self _)⟩
  · obtain ⟨load, u, hload, hu, hget⟩ := (htuple couple rfl).2 s' ⟨Nat.le_refl _, fun _ _ => rfl⟩
      cs 1 (.id ⟨"x", 4⟩) rfl .start [] (.int 0) rfl
    obtain rfl : 5 = u := Option.some.inj hu
    exact ⟨load, hload, hget X []⟩

/-- a memory as large as the address space, of which the last word is left -/
def brimful : Store := ⟨⟨2 ^ 32, Nat.le_refl _, fun _ => 0⟩, -4, []⟩

/-- constants in any number have their words -/
theorem words_replicate (n : Nat) (fr : Frame) (ls : List Word) :
    ∀ f ∈ List.replicate n (Field.const 0), (f.word? fr ls).isSome := by
  intro f hf
  rw [List.eq_of_mem_replicate hf]
  rfl

/-- an object of any number of words can be made if it fits -/
theorem allocated_replicate {n : Nat} (hfit : address s.heap + 4 * n ≤ s.memory.size) :
    ∃ s', Allocated s [.next s n] s' ∧ s'.heap = .ofNat (address s.heap + 4 * n) ∧
      s'.memory.size = s.memory.size := by
  have hlen : (List.replicate n (Field.const 0)).length = n := List.length_replicate
  have hbound := words_replicate n .start []
  rw [← hlen] at hfit
  obtain ⟨code, s', hcode, hrun, hw⟩ := exists_allocation hbound hfit
  have hends := hrun ⟨fun _ => none, fun _ _ => pure 0⟩ []
  have hmade := Allocated.object hbound hfit hcode hends .done
  rw [hlen] at hmade
  exact ⟨s', hmade, hlen ▸ hw.heap, hw.size⟩

/-- **The heap pointer comes round**: the last word is taken, and the next object fits at address
zero and goes as far as the end, where the first one lies. -/
theorem brimful_comes_round : address brimful.heap + 4 * 1 ≤ brimful.memory.size ∧
    ∃ s', Allocated brimful [.next brimful 1] s' ∧
      address s'.heap ≠ address brimful.heap + 4 * 1 ∧
      address s'.heap + 4 * 2 ^ 30 ≤ s'.memory.size ∧
      ∃ s'', Allocated s' [.next s' (2 ^ 30)] s'' ∧
        ¬(Extent.next brimful 1).Apart (.next s' (2 ^ 30)) := by
  have hfit : address brimful.heap + 4 * 1 ≤ brimful.memory.size := by decide
  obtain ⟨s', hmade, hheap, hsize⟩ := allocated_replicate hfit
  have hzero : address s'.heap = 0 := by
    rw [hheap]
    decide
  have hfit' : address s'.heap + 4 * 2 ^ 30 ≤ s'.memory.size := by
    rw [hzero, hsize]
    decide
  obtain ⟨s'', hmade', -⟩ := allocated_replicate hfit'
  refine ⟨hfit, s', hmade, by rw [hzero]; decide, hfit', s'', hmade', fun hapart => ?_⟩
  refine hapart (2 ^ 32 - 4) (by rw [Extent.mem_next]; decide) ?_
  rw [Extent.mem_next, hzero]
  decide

end AnfWasm.Lowering
