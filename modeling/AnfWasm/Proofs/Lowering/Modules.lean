import AnfWasm.Proofs.Lowering.Parts
import AnfWasm.Proofs.Lowering.Simulation
import AnfWasm.Proofs.Scope.Checker

/-!
# Lowered modules run as the program does

Calls that may nest `n` deep end alike on both sides (`Lowers.agree`), by induction on `n`, so the
entry and all functions do.  Of the host of the run nothing is known but that it answers the calls
of the evaluation (`Answers`): asked for words it gives back a word, and may write in the memory.
-/

namespace AnfWasm.Lowering

open Wasm

variable {cs : Callees}

/-! ### parameters -/

/-- the arguments are the first locals -/
theorem inLocals_params {H : Heap} {params : List Ident} {vs : List Value} {us : List Word}
    (hus : List.Forall₂ H.Represents vs us) {K : List UInt32} {fr : Frame} {env : Env}
    {ls : List Word} (hlen : params.length = vs.length) (hf : Fresh K params)
    (hH : InLocals H K fr env ls) (hls : ∀ i u, us[i]? = some u → ls[fr.count + i]? = some u) :
    InLocals H (stamps params ++ K) (params.foldl Frame.bind fr) (env.setAll params vs) ls := by
  induction params generalizing vs us K fr env with
  | nil =>
    obtain rfl : vs = [] := List.length_eq_zero_iff.mp hlen.symm
    exact hH
  | cons x xs ih =>
    cases hus with
    | nil => exact absurd hlen (by simp)
    | @cons v u vs us hu hus =>
      obtain ⟨hx, hxs⟩ := hf.cons
      have hhead : ls[fr.count]? = some u := hls 0 u rfl
      obtain ⟨hlt, hget⟩ := List.getElem?_eq_some_iff.mp hhead
      have hbind := hH.bind hx hu hlt
      have hset : ls.set fr.count u = ls := by rw [← hget, List.set_getElem_self]
      rw [hset] at hbind
      have htail : ∀ i u, us[i]? = some u → ls[(fr.bind x).count + i]? = some u := by
        intro i u' hi
        have := hls (i + 1) u' hi
        rwa [Frame.count_bind, Nat.add_assoc, Nat.add_comm 1 i]
      refine (ih hus (Nat.succ.inj hlen) hxs hbind htail).weaken fun n hn => ?_
      rw [stamps_cons]
      simp only [List.mem_append, List.mem_cons] at hn ⊢
      tauto

theorem inLocals_empty (H : Heap) (ls : List Word) : InLocals H [] .start .empty ls :=
  ⟨fun _ _ h => absurd h (by simp [Env.empty]), fun _ _ h => absurd h (by simp [Env.empty])⟩

section
variable {A : Area} {calls : List ForeignCall} {X : Callables} {Y : Targets} {w : World} {s : Store}
  {H : Heap}

theorem BodyCode.meets {params : List Ident} {body : Expr} {d : FuncDef}
    (h : BodyCode cs params body d) (hXY : Agree A calls cs X Y)
    (hf : Fresh [] (params ++ body.binders)) {vs : List Value} {us : List Word}
    (hlen : params.length = vs.length) (hus : List.Forall₂ H.Represents vs us)
    (hrel : Related A w s H) :
    Meets A calls H Heap.Represents (body.eval X (Env.empty.setAll params vs) w)
      (d.run Y us s) := by
  obtain ⟨fr, hcode, hcount⟩ := h.code
  obtain ⟨hfp, hfb⟩ := hf.append
  have hlocals : ∀ i u, us[i]? = some u →
      (us ++ List.replicate d.locals 0)[Frame.start.count + i]? = some u := by
    intro i u hi
    show (us ++ List.replicate d.locals 0)[0 + i]? = some u
    rw [Nat.zero_add, List.getElem?_append_left (List.getElem?_eq_some_iff.mp hi).1, hi]
  have hH := inLocals_params hus hlen hfp (inLocals_empty H _) hlocals
  have hroom : fr.count ≤ (us ++ List.replicate d.locals 0).length := by
    rw [List.length_append, List.length_replicate, ← hus.length_eq, ← hlen]
    exact Nat.le_of_eq hcount
  refine (hcode.meets hXY hfb hroom hH hrel []).post fun v a s' H' hleave => ?_
  obtain ⟨u, ls', rfl, hu, -⟩ := hleave
  exact ⟨u, rfl, hu⟩

end

/-! ### calls -/

/-- **The host answers these calls.**  In related states, when it is asked for the next of them with
words for the arguments, it gives back a word for the answer and leaves related states. -/
def Answers (A : Area) (calls : List ForeignCall) (host : Wasm.Host) : Prop :=
  ∀ (w : World) (s : Store) (H : Heap) (e : ForeignCall) (us : List Word),
    A.HasRoom calls (w.answered e) → Related A w s H → List.Forall₂ H.Represents e.args us →
    let reply := host s.trace s.memory e.module e.name us
    ∃ H', H.Extends H' ∧ Related A (w.answered e) (s.answered e.module e.name us reply) H' ∧
      H'.Represents e.answer reply.word

section
variable {p : Program} {m : Module} {A : Area} {calls : List ForeignCall} {host : Host}
  {host' : Wasm.Host}

/-- where stamps differ, the first entry with a stamp is the only one -/
theorem find?_stamp {α : Type} {xs : List α} {stamp : α → UInt32} (hd : (xs.map stamp).Nodup)
    {x : α} (hx : x ∈ xs) {n : UInt32} (hn : stamp x = n) :
    xs.find? (fun y => stamp y = n) = some x := by
  cases hfind : xs.find? (fun y => stamp y = n) with
  | none => exact absurd hn (by simpa using List.find?_eq_none.mp hfind x hx)
  | some y =>
    have hy : stamp y = n := by simpa using List.find?_some hfind
    have hmem := List.mem_of_find?_eq_some hfind
    rw [List.inj_on_of_nodup_map hd hmem hx (hy.trans hn.symm)]

theorem func?_of_getElem (hp : p.WellFormed) {f : Ident} {g : Func} {j : Nat}
    (hj : p.functions[j]? = some g) (hn : g.id.stamp = f.stamp) : p.func? f = some g :=
  find?_stamp hp.functions_nodup (List.mem_of_getElem? hj) hn

theorem import?_of_getElem (hp : p.WellFormed) {f : Ident} {i : Import} {j : Nat}
    (hj : p.imports[j]? = some i) (hn : i.id.stamp = f.stamp) : p.import? f = some i :=
  find?_stamp hp.imports_nodup (List.mem_of_getElem? hj) hn

namespace Lowers

theorem arity (h : Lowers p m cs) {foreign : Bool} {f : Ident} {count : Nat} {c : Callee}
    (hc : Callable cs foreign f count c) : m.arity? c.index = some count := by
  rcases h.callee f.stamp c hc.found with ⟨j, i, hj, -, rfl⟩ | ⟨j, g, hj, -, rfl⟩
  · obtain ⟨d, hd, hdecl⟩ := h.import_at hj
    rw [Module.arity?_import hd, hdecl.arity]
    exact congrArg some hc.arity_eq
  · obtain ⟨d, hd, hbody⟩ := h.function_at hj
    show m.arity? (p.imports.length + j) = _
    rw [h.imports.length_eq, Module.arity?_function hd, hbody.arity]
    exact congrArg some hc.arity_eq

theorem meets_callForeign (h : Lowers p m cs) (hp : p.WellFormed) (hhost : Answers A calls host')
    (budget : Nat) {f : Ident} {vs : List Value} {us : List Word} {c : Callee} {w : World}
    {s : Store} {H : Heap} (hc : Callable cs true f vs.length c) (hrel : Related A w s H)
    (hus : List.Forall₂ H.Represents vs us) :
    Meets A calls H Heap.Represents (p.callForeign host f vs w)
      (m.call host' budget c.index us s) := by
  rcases h.callee f.stamp c hc.found with ⟨j, i, hj, hn, rfl⟩ | ⟨j, g, -, -, rfl⟩
  · obtain ⟨d, hd, hdecl⟩ := h.import_at hj
    have heval : p.callForeign host f vs = Eval.ask host i vs := by
      unfold Program.callForeign
      rw [import?_of_getElem hp hj hn]
      exact if_pos hc.arity_eq
    rw [heval, Module.call_import hd]
    intro hin
    obtain ⟨H', he, hrel', hu⟩ := hhost w s H _ us hin hrel hus
    refine ⟨_, _, H', ?_, he, hrel', hu⟩
    rw [← hdecl.module, ← hdecl.name]
    rfl
  · exact absurd hc.foreign_eq (by simp)

/-- a function of the program with its index -/
theorem meets_function (h : Lowers p m cs) (hp : p.WellFormed) {n : Nat}
    (hXY : Agree A calls cs (p.callables host n) (m.targets host' n)) {f : Ident} {g : Func}
    {j : Nat} (hj : p.functions[j]? = some g) (hn : g.id.stamp = f.stamp) {vs : List Value}
    {us : List Word} {w : World} {s : Store} {H : Heap} (hrel : Related A w s H)
    (hus : List.Forall₂ H.Represents vs us) :
    Meets A calls H Heap.Represents (p.call host (n + 1) f vs w)
      (m.call host' (n + 1) (p.imports.length + j) us s) := by
  obtain ⟨d, hd, hbody⟩ := h.function_at hj
  unfold Program.call
  rw [func?_of_getElem hp hj hn]
  show Meets A calls H _ ((if g.params.length = vs.length then _ else _ : Eval Value) w) _
  by_cases hlen : g.params.length = vs.length
  · have harity : d.arity = us.length := by rw [hbody.arity, hlen, hus.length_eq]
    rw [if_pos hlen, h.imports.length_eq, Module.call_function hd host' n harity]
    exact hbody.meets hXY (hp.fresh_func (List.mem_of_getElem? hj)) hlen hus hrel
  · rw [if_neg hlen]
    trivial

theorem agree (h : Lowers p m cs) (hp : p.WellFormed) (hhost : Answers A calls host')
    (budget : Nat) : Agree A calls cs (p.callables host budget) (m.targets host' budget) := by
  induction budget with
  | zero =>
    exact ⟨p.grow_callables host 0, h.arity, fun _ _ _ => trivial, h.meets_callForeign hp hhost 0⟩
  | succ n ih =>
    refine ⟨p.grow_callables host (n + 1), h.arity, ?_, h.meets_callForeign hp hhost (n + 1)⟩
    intro f vs us c w s H hc hrel hus
    rcases h.callee f.stamp c hc.found with ⟨j, i, -, -, rfl⟩ | ⟨j, g, hj, hn, rfl⟩
    · exact absurd hc.foreign_eq (by simp)
    · exact h.meets_function hp ih hj hn hrel hus

end Lowers

end

/-- **Lowered modules do what the program means**: from related states the entry, and each function
with words for its arguments, ends with a word for the value, or in a trap if the evaluation does,
and the states are related again.  This holds for every evaluation whose calls the host answers and
whose words fit. -/
theorem run_lower {p : Program} {m : Module} (hp : p.check = .ok ()) (hm : p.lower.1 = .ok m)
    {A : Area} {calls : List ForeignCall} {host' : Wasm.Host} (hhost : Answers A calls host')
    (host : Host) (budget : Nat) {w : World} {s : Store} {H : Heap} (hrel : Related A w s H) :
    Meets A calls H Heap.Represents (p.run host budget w)
        (m.call host' (budget + 1) (p.imports.length + p.functions.length) [] s) ∧
      ∀ (j : Nat) (g : Func) (vs : List Value) (us : List Word), p.functions[j]? = some g →
        List.Forall₂ H.Represents vs us →
        Meets A calls H Heap.Represents (p.call host budget g.id vs w)
          (m.call host' budget (p.imports.length + j) us s) := by
  have hw := p.check_ok_iff.mp hp
  obtain ⟨cs, h⟩ := lower_ok hm
  constructor
  · obtain ⟨d, hd, hentry⟩ := h.entry_at
    rw [h.imports.length_eq, Module.call_function hd host' budget hentry.arity]
    exact hentry.meets (h.agree hw hhost budget) hw.fresh_body rfl .nil hrel
  · intro j g vs us hj hus
    cases budget with
    | zero => trivial
    | succ n => exact h.meets_function hw (h.agree hw hhost n) hj rfl hrel hus

/-- asks the host for a pair, and adds its second element to a cell -/
def tally : Program where
  source := none
  imports := [{ id := ⟨"next", 0⟩, module := "env", name := "next", arity := 1 }]
  functions := [{
    id := ⟨"count", 1⟩
    params := [⟨"cell", 2⟩]
    body := .letOne ⟨"pair", 3⟩ (.callForeign ⟨"next", 0⟩ [.int 5])
      (.letOne ⟨"n", 4⟩ (.tupleGet 1 (.id ⟨"pair", 3⟩))
        (.letOne ⟨"old", 5⟩ (.unbox (.id ⟨"cell", 2⟩))
          (.letOne ⟨"sum", 6⟩ (.prim2 .add (.id ⟨"old", 5⟩) (.id ⟨"n", 4⟩))
            (.comp (.boxSet (.id ⟨"cell", 2⟩) (.id ⟨"sum", 6⟩))))))
    exported := false
    span := none }]
  body := .letOne ⟨"c", 7⟩ (.boxNew (.int 10))
    (.seq (.call ⟨"count", 1⟩ [.id ⟨"c", 7⟩])
      (.letOne ⟨"v", 8⟩ (.unbox (.id ⟨"c", 7⟩))
        (.comp (.tuple [.id ⟨"v", 8⟩, .bool true]))))

/-- answers a number by the pair of it and the next one -/
def pairing : Host := fun _ _ _ vs =>
  match vs with
  | [.int n] => .tuple [.int n, .int (n + 1)]
  | _ => .unit

/-- places the pair at the end of a page -/
def pairing' : Wasm.Host := fun _ M _ _ us =>
  match us with
  | [n] => ⟨65524, M.write 65524 [2, n, n + 1]⟩
  | _ => ⟨0, M⟩

/-- a page whose last three words are the host's -/
def pairingArea : Area where
  base := 0
  limit := 65524
  size := 65536
  limit_le := by decide
  lent calls a := calls ≠ [] ∧ ∃ i < 3, a = 65524 + 4 * i

/-- the only call of the program -/
def pairingCall : ForeignCall := ⟨"env", "next", [.int 5], .tuple [.int 5, .int 6]⟩

theorem answers_pairing : Answers pairingArea [pairingCall] pairing' := by
  intro w s H e us hin hrel hus
  obtain ⟨hw, rfl⟩ : w.trace = [] ∧ e = pairingCall := by
    have htrace : w.trace ++ [e] <+: [pairingCall] := hin.trace
    have hnil : w.trace = [] := by
      have hlen := htrace.length_le
      rw [List.length_append] at hlen
      exact List.length_eq_zero_iff.mp (by simpa using hlen)
    rw [hnil] at htrace
    exact ⟨hnil, by simpa using htrace⟩
  have hs : s.trace = [] := by
    have htrace := hrel.trace
    rw [hw] at htrace
    exact List.forall₂_nil_left_iff.mp htrace
  obtain rfl : us = [5] := by
    obtain ⟨u, rest, hu, hrest, rfl⟩ := List.forall₂_cons_left_iff.mp hus
    rw [hu.int_eq, List.forall₂_nil_left_iff.mp hrest]
  have hfree : H.Free 65524 [2, 5, 6].length := by
    refine ⟨fun b hb => .inl (Nat.le_trans (hrel.valid.cell b hb).2 hin.words), fun b hb => ?_⟩
    rcases (hrel.valid.frozen b hb).2 with hlow | ⟨-, -, hlent, -⟩
    · exact .inl (Nat.le_trans hlow hin.words)
    · exact absurd hs hlent
  have hparts : List.Forall₂ H.Represents [.int 5, .int 6] [5, 6] :=
    .cons (.int 5) (.cons (.int 6) .nil)
  have hobject : pairingCall.answer.object? = some ([2], [.int 5, .int 6]) := rfl
  have hpair : (H.freeze 65524 [2, 5, 6]).Represents pairingCall.answer 65524 :=
    Heap.represents_freeze hobject hfree (by decide) hparts
  refine ⟨_, hfree.extends_freeze,
    hrel.answer hfree rfl (by decide) (by decide) ?_ hus hpair, hpair⟩
  rintro b (⟨hlent, -⟩ | hb)
  · exact absurd hs hlent
  · exact ⟨by simp, hb⟩

theorem run_lower_tally : tally.check = .ok () ∧ ∃ m, tally.lower.1 = .ok m ∧
    ∃ u s H, m.call pairing' 2 2 [] .start = .ok u s ∧
      Related pairingArea ⟨[pairingCall], [.int 16], 4⟩ s H ∧
      H.Represents (.tuple [.int 16, .bool true]) u := by
  obtain ⟨m, hm⟩ : ∃ m, tally.lower.1 = .ok m := ⟨_, rfl⟩
  have hcheck : tally.check = .ok () := rfl
  have hrun : tally.run pairing 1 .start = .ok (.tuple [.int 16, .bool true])
      ⟨[pairingCall], [.int 16], 4⟩ := rfl
  have hrel : Related pairingArea .start .start _ := .start rfl (by decide)
  have hend := (run_lower hcheck hm answers_pairing pairing 1 hrel).1
  rw [hrun] at hend
  obtain ⟨u, s, H, hr, -, hrel', hu⟩ := hend ⟨by decide, List.prefix_rfl⟩
  exact ⟨hcheck, m, hm, u, s, H, hr, hrel', hu⟩

end AnfWasm.Lowering
