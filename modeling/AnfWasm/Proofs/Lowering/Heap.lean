import AnfWasm.Proofs.Semantics.Growth
import AnfWasm.Proofs.Wasm.Machine
import Mathlib.Data.List.Forall2

/-!
# Values in memory

`Heap.Represents H v w` says that the word `w` stands for the value `v`: numbers, truth values and
unit are themselves, a cell is its address, and an immutable object is the address of its words,
which are its header and its components (`Value.object?`).  The words of objects are frozen, that is
never written again, so a value stays represented while the heap grows and while cells are written
(`Heap.Represents.mono`).

`Related A w s H` relates the world of an evaluation and the store of a run.  The program builds its
objects in its own part of the memory; the host may place others outside of it, of which `A : Area`
keeps account.  There is one lemma for each thing that can happen to both sides:

* `Related.freeze`    a new object;
* `Related.newCell`, `Related.setCell`   a new cell, and a new content for a cell;
* `Related.answer`    a call that the host answers, with a new object of its own if it needs one.
-/

namespace AnfWasm

open Wasm

/-- the header and the components of an object -/
def Value.object? : Value → Option (List Word × List Value)
  | .tuple vs => some ([.ofNat vs.length], vs)
  | .adt typeTag variant vs => some ([typeTag.toInt32, variant.toInt32, .ofNat vs.length], vs)
  | _ => none

/-- The part of the memory that is the program's, from `base` up to `limit`.  Beyond it the host has
room up to `size`, and there are the words that it has lent to the program, which depend on the
calls that it has answered. -/
structure Area where
  base : Nat
  limit : Nat
  size : Nat
  limit_le : limit ≤ size
  lent : List HostCall → Nat → Prop

namespace Area

/-- where the next object of the program goes -/
def top (A : Area) (w : World) : Nat := A.base + 4 * w.words

/-- the words fit in the program's part, and the host was asked for nothing but `calls` -/
structure HasRoom (A : Area) (calls : List ForeignCall) (w : World) : Prop where
  words : A.top w ≤ A.limit
  trace : w.trace <+: calls

theorem HasRoom.before {A : Area} {calls : List ForeignCall} {w w' : World} (h : A.HasRoom calls w')
    (hw : w.Before w') : A.HasRoom calls w where
  words := by
    have hle := h.words
    have := hw.words
    unfold top at hle ⊢
    omega
  trace := hw.trace.trans h.trace

end Area

/-- A memory, the addresses of the cells in it by location, and the addresses of the words that are
not written again. -/
structure Heap where
  memory : Memory
  cells : List Nat
  frozen : Nat → Prop

namespace Heap

/-- **Representation of values.** -/
inductive Represents (H : Heap) : Value → Word → Prop where
  | int (n : Int32) : Represents H (.int n) n
  | bool (b : Bool) : Represents H (.bool b) (truth b)
  | unit : Represents H .unit 0
  | box {l : Nat} {w : Word} : H.cells[l]? = some (address w) → Represents H (.box l) w
  | object {v : Value} {header : List Word} {vs : List Value} {w : Word} :
      v.object? = some (header, vs) →
      (∀ i < header.length + vs.length, H.frozen (address w + 4 * i)) →
      (∀ i h, header[i]? = some h → H.memory.word (address w + 4 * i) = h) →
      (∀ i u, vs[i]? = some u →
        Represents H u (H.memory.word (address w + 4 * (header.length + i)))) →
      Represents H v w

/-- The second heap has what the first one has, in the same places. -/
structure Extends (H H' : Heap) : Prop where
  size : H.memory.size ≤ H'.memory.size
  cells : H.cells <+: H'.cells
  frozen : ∀ a, H.frozen a → H'.frozen a
  words : ∀ a, H.frozen a → H'.memory.word a = H.memory.word a

variable {H H' H'' : Heap}

theorem Extends.refl (H : Heap) : H.Extends H :=
  ⟨Nat.le_refl _, List.prefix_rfl, fun _ h => h, fun _ _ => rfl⟩

theorem Extends.trans (h : H.Extends H') (h' : H'.Extends H'') : H.Extends H'' where
  size := Nat.le_trans h.size h'.size
  cells := h.cells.trans h'.cells
  frozen a ha := h'.frozen a (h.frozen a ha)
  words a ha := (h'.words a (h.frozen a ha)).trans (h.words a ha)

theorem Extends.cell (h : H.Extends H') {l a : Nat} (hl : H.cells[l]? = some a) :
    H'.cells[l]? = some a := by
  obtain ⟨more, hmore⟩ := h.cells
  rw [← hmore, List.getElem?_append_left (List.getElem?_eq_some_iff.mp hl).1]
  exact hl

theorem Represents.mono {v : Value} {w : Word} (h : H.Represents v w) (he : H.Extends H') :
    H'.Represents v w := by
  induction h with
  | int n => exact .int n
  | bool b => exact .bool b
  | unit => exact .unit
  | box hl => exact .box (he.cell hl)
  | @object v header vs w hv hfrozen hheader hparts ih =>
    refine .object hv (fun i hi => he.frozen _ (hfrozen i hi)) (fun i h hh => ?_) fun i u hu => ?_
    · have hi := (List.getElem?_eq_some_iff.mp hh).1
      rw [he.words _ (hfrozen i (by omega))]
      exact hheader i h hh
    · have hi := (List.getElem?_eq_some_iff.mp hu).1
      rw [he.words _ (hfrozen (header.length + i) (by omega))]
      exact ih i u hu

theorem Represents.int_eq {n : Int32} {w : Word} (h : H.Represents (.int n) w) : w = n := by
  cases h with
  | int => rfl
  | object hv => exact absurd hv (by simp [Value.object?])

theorem Represents.bool_eq {b : Bool} {w : Word} (h : H.Represents (.bool b) w) : w = truth b := by
  cases h with
  | bool => rfl
  | object hv => exact absurd hv (by simp [Value.object?])

theorem Represents.cell {l : Nat} {w : Word} (h : H.Represents (.box l) w) :
    H.cells[l]? = some (address w) := by
  cases h with
  | box hl => exact hl
  | object hv => exact absurd hv (by simp [Value.object?])

/-- the words of the elements of a tuple follow its arity -/
theorem Represents.element {vs : List Value} {w : Word} (h : H.Represents (.tuple vs) w) {i : Nat}
    {u : Value} (hu : vs[i]? = some u) : H.frozen (address w + 4 * (i + 1)) ∧
      H.Represents u (H.memory.word (address w + 4 * (i + 1))) := by
  cases h with
  | object hv hfrozen hheader hparts =>
    obtain ⟨rfl, rfl⟩ := Prod.mk.inj (Option.some.inj hv)
    have hi := (List.getElem?_eq_some_iff.mp hu).1
    rw [Nat.add_comm i 1]
    exact ⟨hfrozen (1 + i) (by rw [List.length_singleton]; omega), hparts i u hu⟩

/-- The cells and the frozen words lie apart from each other.  Those of the program end at `top`,
and beyond its part there are the frozen words that the host has lent. -/
structure Valid (H : Heap) (A : Area) (calls : List HostCall) (top : Nat) : Prop where
  room : A.size ≤ H.memory.size
  aligned : top % 4 = 0
  cell : ∀ a ∈ H.cells, a % 4 = 0 ∧ a + 4 ≤ top
  frozen : ∀ a, H.frozen a →
    a % 4 = 0 ∧ (a + 4 ≤ top ∨ A.limit ≤ a ∧ a + 4 ≤ H.memory.size ∧ A.lent calls a)
  distinct : H.cells.Nodup
  apart : ∀ a ∈ H.cells, ¬H.frozen a

/-- no cell and no frozen word overlaps the `n` words from `a` on -/
structure Free (H : Heap) (a n : Nat) : Prop where
  cell : ∀ b ∈ H.cells, b + 4 ≤ a ∨ a + 4 * n ≤ b
  frozen : ∀ b, H.frozen b → b + 4 ≤ a ∨ a + 4 * n ≤ b

/-! ### changes -/

/-- a new object at `a` -/
def freeze (H : Heap) (a : Nat) (ws : List Word) : Heap where
  memory := H.memory.write a ws
  cells := H.cells
  frozen b := H.frozen b ∨ ∃ i < ws.length, b = a + 4 * i

/-- a new cell at `top` -/
def newCell (H : Heap) (top : Nat) (w : Word) : Heap :=
  { H with memory := H.memory.write top [w], cells := H.cells ++ [top] }

/-- a new content for the cell at `a` -/
def setCell (H : Heap) (a : Nat) (w : Word) : Heap :=
  { H with memory := H.memory.setWord a w }

variable {a n top : Nat} {A : Area} {calls : List HostCall}

theorem Free.extends_freeze {ws : List Word} (h : H.Free a ws.length) :
    H.Extends (H.freeze a ws) where
  size := Nat.le_of_eq (H.memory.size_write a ws).symm
  cells := List.prefix_rfl
  frozen _ hb := .inl hb
  words b hb := H.memory.word_write_other (h.frozen b hb)

theorem Free.extends_newCell (h : H.Free a 1) (w : Word) : H.Extends (H.newCell a w) where
  size := Nat.le_of_eq (H.memory.size_write a [w]).symm
  cells := List.prefix_append _ _
  frozen _ hb := hb
  words b hb := H.memory.word_write_other (h.frozen b hb)

/-- the program's part is free from `top` on -/
theorem Valid.free (h : H.Valid A calls top) (hfit : top + 4 * n ≤ A.limit) : H.Free top n where
  cell b hb := .inl (h.cell b hb).2
  frozen b hb := by
    rcases (h.frozen b hb).2 with hlow | ⟨hhigh, -⟩
    · exact .inl hlow
    · exact .inr (Nat.le_trans hfit hhigh)

theorem Valid.freeze (h : H.Valid A calls top) (ws : List Word) :
    (H.freeze top ws).Valid A calls (top + 4 * ws.length) where
  room := (H.memory.size_write top ws).symm ▸ h.room
  aligned := by
    have := h.aligned
    omega
  cell a ha := by
    have := h.cell a ha
    omega
  frozen a ha := by
    have htop := h.aligned
    have hsize : (H.freeze top ws).memory.size = H.memory.size := H.memory.size_write top ws
    rcases ha with ha | ⟨i, hi, rfl⟩
    · obtain ⟨ha4, hlow | hhigh⟩ := h.frozen a ha
      · exact ⟨ha4, .inl (by omega)⟩
      · exact ⟨ha4, .inr (hsize ▸ hhigh)⟩
    · exact ⟨by omega, .inl (by omega)⟩
  distinct := h.distinct
  apart a ha := by
    rintro (hf | ⟨i, hi, rfl⟩)
    · exact h.apart a ha hf
    · have := h.cell _ ha
      omega

/-- the host lends an object -/
theorem Valid.lend (h : H.Valid A calls top) {calls' : List HostCall} {ws : List Word}
    (hfree : H.Free a ws.length) (ha : a % 4 = 0) (hlow : A.limit ≤ a)
    (hhigh : a + 4 * ws.length ≤ A.size) (hkept : ∀ b, A.lent calls b → A.lent calls' b)
    (hlent : ∀ i < ws.length, A.lent calls' (a + 4 * i)) :
    (H.freeze a ws).Valid A calls' top where
  room := (H.memory.size_write a ws).symm ▸ h.room
  aligned := h.aligned
  cell := h.cell
  frozen b hb := by
    have hsize : (H.freeze a ws).memory.size = H.memory.size := H.memory.size_write a ws
    have hroom := h.room
    rw [hsize]
    rcases hb with hb | ⟨i, hi, rfl⟩
    · obtain ⟨hb4, hbelow | ⟨hb1, hb2, hb3⟩⟩ := h.frozen b hb
      · exact ⟨hb4, .inl hbelow⟩
      · exact ⟨hb4, .inr ⟨hb1, hb2, hkept b hb3⟩⟩
    · exact ⟨by omega, .inr ⟨by omega, by omega, hlent i hi⟩⟩
  distinct := h.distinct
  apart b hb := by
    rintro (hf | ⟨i, hi, rfl⟩)
    · exact h.apart b hb hf
    · have := hfree.cell _ hb
      omega

theorem Valid.newCell (h : H.Valid A calls top) (hfree : H.Free top 1) (w : Word) :
    (H.newCell top w).Valid A calls (top + 4) where
  room := (H.memory.size_write top [w]).symm ▸ h.room
  aligned := by
    have := h.aligned
    omega
  cell a ha := by
    have htop := h.aligned
    rcases List.mem_append.mp ha with ha | ha
    · have := h.cell a ha
      omega
    · obtain rfl := List.mem_singleton.mp ha
      omega
  frozen a ha := by
    have hsize : (H.newCell top w).memory.size = H.memory.size := H.memory.size_write top [w]
    obtain ⟨ha4, hlow | hhigh⟩ := h.frozen a ha
    · exact ⟨ha4, .inl (by omega)⟩
    · exact ⟨ha4, .inr (hsize ▸ hhigh)⟩
  distinct := by
    refine List.nodup_append.mpr ⟨h.distinct, by simp, fun a ha b hb => ?_⟩
    obtain rfl := List.mem_singleton.mp hb
    have := (h.cell a ha).2
    omega
  apart a ha := by
    rcases List.mem_append.mp ha with ha | ha
    · exact h.apart a ha
    · obtain rfl := List.mem_singleton.mp ha
      intro hf
      have := hfree.frozen a hf
      omega

theorem Valid.setCell (h : H.Valid A calls top) (a : Nat) (w : Word) :
    (H.setCell a w).Valid A calls top :=
  ⟨h.room, h.aligned, h.cell, h.frozen, h.distinct, h.apart⟩

/-- two aligned words are one or do not overlap -/
theorem disjoint_of_ne {a b : Nat} (ha : a % 4 = 0) (hb : b % 4 = 0) (h : b ≠ a) :
    b + 4 ≤ a ∨ a + 4 ≤ b := by
  omega

theorem Valid.extends_setCell (h : H.Valid A calls top) (ha : a ∈ H.cells) (w : Word) :
    H.Extends (H.setCell a w) where
  size := Nat.le_refl _
  cells := List.prefix_rfl
  frozen _ hb := hb
  words b hb := by
    refine H.memory.word_setWord_other w (disjoint_of_ne (h.cell a ha).1 (h.frozen b hb).1 ?_)
    rintro rfl
    exact h.apart _ ha hb

/-- The object that was written is represented by its address. -/
theorem represents_freeze {v : Value} {header : List Word} {vs : List Value} {ws : List Word}
    (hv : v.object? = some (header, vs)) (hfree : H.Free a (header ++ ws).length)
    (ha : a < 2 ^ 32) (hws : List.Forall₂ H.Represents vs ws) :
    (H.freeze a (header ++ ws)).Represents v (.ofNat a) := by
  have hlen := hws.length_eq
  have haddr : address (.ofNat a) = a := address_ofNat ha
  refine .object hv (fun i hi => ?_) (fun i h hh => ?_) fun i u hu => ?_
  · rw [haddr]
    exact .inr ⟨i, by rw [List.length_append]; omega, rfl⟩
  · have hword : (header ++ ws)[i]? = some h := by
      rw [List.getElem?_append_left (List.getElem?_eq_some_iff.mp hh).1, hh]
    rw [haddr]
    exact H.memory.word_write a hword
  · obtain ⟨hi, rfl⟩ := List.getElem?_eq_some_iff.mp hu
    have hi' : i < ws.length := by omega
    have hpart : (header ++ ws)[header.length + i]? = some ws[i] := by
      rw [List.getElem?_append_right (by omega), Nat.add_sub_cancel_left,
        List.getElem?_eq_getElem hi']
    have hword : (H.freeze a (header ++ ws)).memory.word (a + 4 * (header.length + i))
        = ws[i] := H.memory.word_write a hpart
    rw [haddr, hword]
    exact (hws.get hi hi').mono hfree.extends_freeze

end Heap

/-! ### worlds and stores -/

/-- the same call on both sides -/
structure Heap.Records (H : Heap) (e : ForeignCall) (c : HostCall) : Prop where
  module : c.module = e.module
  name : c.name = e.name
  args : List.Forall₂ H.Represents e.args c.args
  answer : H.Represents e.answer c.answer

/-- The memory has the heap, and the heap pointer points at the end of the program's objects; the
host was asked for the same things; and each cell has the content that it should have. -/
structure Related (A : Area) (w : World) (s : Store) (H : Heap) : Prop where
  memory : s.memory = H.memory
  heap : s.heap = .ofNat (A.top w)
  valid : H.Valid A s.trace (A.top w)
  trace : List.Forall₂ H.Records w.trace s.trace
  count : H.cells.length = w.store.length
  content : ∀ (l a : Nat) (v : Value), H.cells[l]? = some a → w.store[l]? = some v →
    H.Represents v (H.memory.word a)

theorem Heap.Records.mono {H H' : Heap} {e : ForeignCall} {c : HostCall} (h : H.Records e c)
    (he : H.Extends H') : H'.Records e c where
  module := h.module
  name := h.name
  args := h.args.imp fun _ _ hr => hr.mono he
  answer := h.answer.mono he

theorem getElem?_concat {α : Type} {xs : List α} {x y : α} {i : Nat}
    (h : (xs ++ [x])[i]? = some y) (hi : ¬i < xs.length) : i = xs.length ∧ x = y := by
  rw [List.getElem?_append_right (by omega)] at h
  obtain ⟨hlt, rfl⟩ := List.getElem?_eq_some_iff.mp h
  rw [List.length_singleton] at hlt
  exact ⟨by omega, by simp⟩

namespace Related
variable {A : Area} {w : World} {s : Store} {H : Heap}

/-- a new instance has an empty heap -/
theorem start {A : Area} (hbase : A.base = 0) (hsize : A.size ≤ 65536) :
    Related A .start .start ⟨.page, [], fun _ => False⟩ where
  memory := rfl
  heap := by
    rw [Area.top, hbase]
    rfl
  valid := by
    refine ⟨hsize, ?_, fun _ h => absurd h List.not_mem_nil, fun _ h => h.elim, List.nodup_nil,
      fun _ h => absurd h List.not_mem_nil⟩
    rw [Area.top, hbase]
    rfl
  trace := .nil
  count := rfl
  content _ _ _ h := absurd h (by simp)

/-- what the cells hold is still there when an object was written elsewhere -/
theorem content_freeze (h : Related A w s H) {a : Nat} {ws : List Word}
    (hfree : H.Free a ws.length) {l b : Nat} {v : Value} (hl : H.cells[l]? = some b)
    (hv : w.store[l]? = some v) :
    (H.freeze a ws).Represents v ((H.memory.write a ws).word b) := by
  rw [H.memory.word_write_other (hfree.cell b (List.mem_of_getElem? hl))]
  exact (h.content l b v hl hv).mono hfree.extends_freeze

theorem freeze (h : Related A w s H) {ws : List Word} (hfree : H.Free (A.top w) ws.length) :
    Related A { w with words := w.words + ws.length }
      { s with
        memory := s.memory.write (A.top w) ws
        heap := s.heap + .ofNat (4 * ws.length) }
      (H.freeze (A.top w) ws) where
  memory := by
    show s.memory.write _ ws = H.memory.write _ ws
    rw [h.memory]
  heap := by
    show s.heap + .ofNat (4 * ws.length) = .ofNat (A.base + 4 * (w.words + ws.length))
    rw [h.heap, ← Int32.ofNat_add, Area.top]
    congr 1
    omega
  valid := by
    have := h.valid.freeze ws
    rwa [Area.top, Nat.add_assoc, ← Nat.mul_add] at this
  trace := h.trace.imp fun _ _ hr => hr.mono hfree.extends_freeze
  count := h.count
  content _ _ _ hl hv := h.content_freeze hfree hl hv

theorem newCell (h : Related A w s H) {v : Value} {u : Word} (hfree : H.Free (A.top w) 1)
    (hv : H.Represents v u) :
    Related A { w with words := w.words + 1, store := w.store ++ [v] }
      { s with
        memory := s.memory.write (A.top w) [u]
        heap := s.heap + .ofNat 4 }
      (H.newCell (A.top w) u) where
  memory := by
    show s.memory.write _ [u] = H.memory.write _ [u]
    rw [h.memory]
  heap := by
    show s.heap + .ofNat 4 = .ofNat (A.base + 4 * (w.words + 1))
    rw [h.heap, ← Int32.ofNat_add]
    rfl
  valid := h.valid.newCell hfree u
  trace := h.trace.imp fun _ _ hr => hr.mono (hfree.extends_newCell u)
  count := by
    show (H.cells ++ [_]).length = (w.store ++ [v]).length
    rw [List.length_append, List.length_append, h.count]
    rfl
  content l a v' hl hv' := by
    have he := hfree.extends_newCell u
    show (H.newCell _ u).Represents v' ((H.memory.write _ [u]).word a)
    by_cases hnew : l < H.cells.length
    · have hl' : H.cells[l]? = some a := by
        rwa [← List.getElem?_append_left hnew]
      have hv'' : w.store[l]? = some v' := by
        rwa [← List.getElem?_append_left (h.count ▸ hnew)]
      rw [H.memory.word_write_other (hfree.cell a (List.mem_of_getElem? hl'))]
      exact (h.content l a v' hl' hv'').mono he
    · obtain ⟨rfl, rfl⟩ : l = H.cells.length ∧ A.top w = a := getElem?_concat hl hnew
      obtain ⟨-, rfl⟩ : H.cells.length = w.store.length ∧ v = v' :=
        getElem?_concat hv' (h.count ▸ hnew)
      have hword : (H.memory.write (A.top w) [u]).word (A.top w) = u :=
        H.memory.word_setWord _ u
      rw [hword]
      exact hv.mono he

theorem setCell (h : Related A w s H) {l a : Nat} {v : Value} {u : Word}
    (hl : H.cells[l]? = some a) (hv : H.Represents v u) :
    Related A { w with store := w.store.set l v } { s with memory := s.memory.setWord a u }
      (H.setCell a u) where
  memory := by
    show s.memory.setWord a u = H.memory.setWord a u
    rw [h.memory]
  heap := h.heap
  valid := h.valid.setCell a u
  trace := h.trace.imp fun _ _ hr => hr.mono (h.valid.extends_setCell (List.mem_of_getElem? hl) u)
  count := by
    show H.cells.length = (w.store.set l v).length
    rw [List.length_set, h.count]
  content l' a' v' hl' hv' := by
    have he := h.valid.extends_setCell (List.mem_of_getElem? hl) u
    show (H.setCell a u).Represents v' ((H.memory.setWord a u).word a')
    by_cases hll : l = l'
    · subst hll
      obtain rfl : a = a' := Option.some.inj (hl.symm.trans hl')
      have hlt : l < w.store.length := h.count ▸ (List.getElem?_eq_some_iff.mp hl).1
      obtain rfl : v = v' := by
        have hv'' : (w.store.set l v)[l]? = some v' := hv'
        rw [List.getElem?_set_self hlt] at hv''
        exact Option.some.inj hv''
      rw [H.memory.word_setWord]
      exact hv.mono he
    · have hv'' : (w.store.set l v)[l']? = some v' := hv'
      rw [List.getElem?_set_ne hll] at hv''
      -- another cell has another address
      have hne : a' ≠ a := by
        rintro rfl
        have hlt := (List.getElem?_eq_some_iff.mp hl).1
        exact hll ((List.getElem?_inj hlt h.valid.distinct).mp (hl.trans hl'.symm))
      have hdis := Heap.disjoint_of_ne (h.valid.cell a (List.mem_of_getElem? hl)).1
        (h.valid.cell a' (List.mem_of_getElem? hl')).1 hne
      rw [H.memory.word_setWord_other u hdis]
      exact (h.content l' a' v' hl' hv'').mono he

/-- The host answers a call, and may lend an object at `a` for it. -/
theorem answer (h : Related A w s H) {a : Nat} {ws : List Word} {e : ForeignCall} {u : Word}
    {us : List Word} (hfree : H.Free a ws.length) (ha : a % 4 = 0) (hlow : A.limit ≤ a)
    (hhigh : a + 4 * ws.length ≤ A.size)
    (hlent : ∀ b, A.lent s.trace b ∨ (∃ i < ws.length, b = a + 4 * i) →
      A.lent (s.trace ++ [⟨e.module, e.name, us, u⟩]) b)
    (hargs : List.Forall₂ H.Represents e.args us) (hu : (H.freeze a ws).Represents e.answer u) :
    Related A (w.answered e) (s.answered e.module e.name us ⟨u, s.memory.write a ws⟩)
      (H.freeze a ws) where
  memory := by
    show s.memory.write a ws = H.memory.write a ws
    rw [h.memory]
  heap := h.heap
  valid := h.valid.lend hfree ha hlow hhigh (fun b hb => hlent b (.inl hb))
    fun i hi => hlent _ (.inr ⟨i, hi, rfl⟩)
  trace := by
    have he := hfree.extends_freeze
    refine List.rel_append (h.trace.imp fun _ _ hr => hr.mono he) (.cons ?_ .nil)
    exact ⟨rfl, rfl, hargs.imp fun _ _ hr => hr.mono he, hu⟩
  count := h.count
  content _ _ _ hl hv := h.content_freeze hfree hl hv

end Related

end AnfWasm
