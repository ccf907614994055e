import AnfWasm.Program.Rules
import AnfWasm.Proofs.Program.Walks
import Mathlib.Data.List.Basic

/-!
# The tour of a program

`Node.parts` are the nodes right below a node, and a `place` says which part to take at each level
(`Node.at?`).  `Node.tour` is the depth-first traversal: a node is entered, then come the tours of
its parts in order, then it is left.  It is well nested (`Nested`), and every place is entered once
and left once (`Node.filter_tour`).

A mapper whose hooks give back what they get (`Mapper.IsObserver`) is free in what it does to its
state.  It gives back every program, and its state has then been through the hooks in the order of
the tour (`Program.mapM_tour`).
-/

namespace AnfWasm

open Rules (Event)

namespace Node

/-- the nodes right below a node, in order -/
def parts : Node → List Node
  | .program p => p.functions.map .func ++ [.expr p.body]
  | .func f => [.expr f.body]
  | .expr (.letIn _ bindings body) => bindings.map .binding ++ [.expr body]
  | .expr (.seq c rest) => [.comp c, .expr rest]
  | .expr (.comp c) => [.comp c]
  | .binding b => [.comp b.comp]
  | .comp c => c.operands.map .imm ++ c.arms.map .expr
  | .imm _ => []

/-- the node at a place: which part to take at each level -/
def at? : Node → List Nat → Option Node
  | n, [] => some n
  | n, i :: place => n.parts[i]? >>= fun part => part.at? place

def height : Node → Nat
  | .program p => p.height + 2
  | .func f => f.height + 1
  | .expr e => e.height
  | .binding b => b.height
  | .comp c => c.height
  | .imm _ => 0

end Node

/-! ### heights -/

theorem Binding.height_eq (b : Binding) : b.height = 1 + b.comp.height := by
  cases b
  rw [Binding.height]

theorem Binding.height_le_heights {bs : List Binding} {b : Binding} (h : b ∈ bs) :
    b.height ≤ Binding.heights bs := by
  induction bs with
  | nil => nomatch h
  | cons first bs ih =>
    rw [Binding.heights]
    rcases List.mem_cons.mp h with rfl | h
    · exact Nat.le_max_left _ _
    · exact Nat.le_trans (ih h) (Nat.le_max_right _ _)

theorem Comp.one_le_height (c : Comp) : 1 ≤ c.height := by
  cases c <;> simp [Comp.height]

theorem Comp.height_of_mem_arms {c : Comp} {e : Expr} (h : e ∈ c.arms) : e.height < c.height := by
  cases c with
  | branch cond thenArm elseArm =>
    rw [Comp.height]
    rcases List.mem_cons.mp h with rfl | h
    · omega
    · obtain rfl := List.mem_singleton.mp h
      omega
  | _ => nomatch h

theorem Func.height_le_foldr {fs : List Func} {f : Func} (h : f ∈ fs) :
    f.height ≤ (fs.map Func.height).foldr max 0 := by
  induction fs with
  | nil => nomatch h
  | cons first fs ih =>
    rw [List.map_cons, List.foldr_cons]
    rcases List.mem_cons.mp h with rfl | h
    · exact Nat.le_max_left _ _
    · exact Nat.le_trans (ih h) (Nat.le_max_right _ _)

theorem Node.height_of_mem_parts {n part : Node} (h : part ∈ n.parts) : part.height < n.height := by
  cases n with
  | program p =>
    show _ < max _ _ + 2
    rcases List.mem_append.mp h with h | h
    · obtain ⟨f, hf, rfl⟩ := List.mem_map.mp h
      have := Func.height_le_foldr hf
      show f.height + 1 < _
      omega
    · obtain rfl := List.mem_singleton.mp h
      show p.body.height < _
      omega
  | func f =>
    obtain rfl := List.mem_singleton.mp h
    exact Nat.lt_succ_self _
  | expr e =>
    show _ < e.height
    cases e with
    | letIn kind bindings body =>
      rw [Expr.height]
      rcases List.mem_append.mp h with h | h
      · obtain ⟨b, hb, rfl⟩ := List.mem_map.mp h
        have := Binding.height_le_heights hb
        show b.height < _
        omega
      · obtain rfl := List.mem_singleton.mp h
        show body.height < _
        omega
    | seq comp rest =>
      rw [Expr.height]
      rcases List.mem_cons.mp h with rfl | h
      · show comp.height < _
        omega
      · obtain rfl := List.mem_singleton.mp h
        show rest.height < _
        omega
    | comp comp =>
      obtain rfl := List.mem_singleton.mp h
      rw [Expr.height]
      show comp.height < _
      omega
  | binding b =>
    obtain rfl := List.mem_singleton.mp h
    show b.comp.height < b.height
    rw [Binding.height_eq]
    omega
  | comp c =>
    rcases List.mem_append.mp h with h | h
    · obtain ⟨a, _, rfl⟩ := List.mem_map.mp h
      exact c.one_le_height
    · obtain ⟨e, he, rfl⟩ := List.mem_map.mp h
      exact Comp.height_of_mem_arms he
  | imm a => nomatch h

/-- induction from the parts of a node to the node -/
theorem Node.induction_parts {P : Node → Prop} (step : ∀ n, (∀ part ∈ n.parts, P part) → P n)
    (n : Node) : P n :=
  step n fun part _ => Node.induction_parts step part
termination_by n.height
decreasing_by exact Node.height_of_mem_parts ‹_›

/-! ### tours -/

/-- A node is entered or left at a place. -/
structure Visit where
  moment : Moment
  place : List Nat
  node : Node

namespace Visit

/-- the visit as seen from one level up -/
def under (i : Nat) (v : Visit) : Visit := { v with place := i :: v.place }

/-- the hook that the visit is for, and the node that the hook gets -/
def event (v : Visit) : Event := (v.moment, v.node)

end Visit

/-- Depth first: the node is entered, its parts are visited in order, and it is left. -/
def Node.tour (n : Node) : List Visit :=
  ⟨.enter, [], n⟩
    :: (n.parts.attach.mapIdx fun i part => (Node.tour part.1).map (Visit.under i)).flatten
    ++ [⟨.leave, [], n⟩]
termination_by n.height
decreasing_by exact Node.height_of_mem_parts part.2

/-- the calls of hooks along the tour -/
def Node.events (n : Node) : List Event := n.tour.map Visit.event

/-- What is entered is left, and what comes between is nested too. -/
inductive Nested : List Visit → Prop
  | nil : Nested []
  | cons {place : List Nat} {n : Node} {inner rest : List Visit} : Nested inner → Nested rest →
      Nested (⟨.enter, place, n⟩ :: inner ++ ⟨.leave, place, n⟩ :: rest)

theorem Node.tour_eq (n : Node) : n.tour =
    ⟨.enter, [], n⟩ :: (n.parts.mapIdx fun i part => part.tour.map (Visit.under i)).flatten
      ++ [⟨.leave, [], n⟩] := by
  have h : n.parts.attach.mapIdx (fun i part => (Node.tour part.1).map (Visit.under i))
      = n.parts.mapIdx fun i part => part.tour.map (Visit.under i) := by
    apply List.ext_getElem
    · simp
    · intro i _ _
      simp
  rw [Node.tour, h]

theorem map_event_flatten (f : Nat → Node → List Visit)
    (hf : ∀ i n, (f i n).map Visit.event = n.events) (ns : List Node) :
    (ns.mapIdx f).flatten.map Visit.event = ns.flatMap Node.events := by
  induction ns generalizing f with
  | nil => rfl
  | cons n ns ih =>
    rw [List.mapIdx_cons, List.flatten_cons, List.map_append, List.flatMap_cons, hf]
    rw [ih _ fun i => hf (i + 1)]

theorem Node.events_eq (n : Node) :
    n.events = (.enter, n) :: n.parts.flatMap Node.events ++ [(.leave, n)] := by
  have h : ∀ i (part : Node), (part.tour.map (Visit.under i)).map Visit.event = part.events :=
    fun i part => List.map_map
  rw [Node.events, Node.tour_eq, List.map_append, List.map_cons, map_event_flatten _ h]
  rfl

/-! ### brackets -/

namespace Nested

variable {a b : List Visit}

theorem append (ha : Nested a) (hb : Nested b) : Nested (a ++ b) := by
  induction ha with
  | nil => exact hb
  | cons hinner hrest ih₁ ih₂ =>
    rw [List.append_assoc, List.cons_append]
    exact .cons hinner ih₂

theorem under (i : Nat) (h : Nested a) : Nested (a.map (Visit.under i)) := by
  induction h with
  | nil => exact .nil
  | cons _ _ ih₁ ih₂ =>
    rw [List.map_append, List.map_cons, List.map_cons]
    exact .cons ih₁ ih₂

theorem flatten {as : List (List Visit)} (h : ∀ a ∈ as, Nested a) : Nested as.flatten := by
  induction as with
  | nil => exact .nil
  | cons a as ih =>
    rw [List.flatten_cons]
    exact (h a List.mem_cons_self).append (ih fun b hb => h b (List.mem_cons_of_mem _ hb))

end Nested

theorem Node.nested_tour (n : Node) : Nested n.tour := by
  induction n using Node.induction_parts with
  | step n ih =>
    rw [Node.tour_eq]
    refine .cons (Nested.flatten fun a ha => ?_) .nil
    obtain ⟨i, hi, rfl⟩ := List.mem_mapIdx.mp ha
    exact (ih _ (List.getElem_mem hi)).under i

/-! ### places -/

/-- the visits at a place -/
def Visit.isAt (moment : Moment) (place : List Nat) (v : Visit) : Bool :=
  v.moment = moment ∧ v.place = place

theorem filter_under_self (moment : Moment) (i : Nat) (place : List Nat) (vs : List Visit) :
    (vs.map (Visit.under i)).filter (Visit.isAt moment (i :: place))
      = (vs.filter (Visit.isAt moment place)).map (Visit.under i) := by
  rw [List.filter_map]
  congr 2
  funext v
  simp [Visit.isAt, Visit.under]

theorem filter_under_of_ne (moment : Moment) {i j : Nat} (h : j ≠ i) (place : List Nat)
    (vs : List Visit) : (vs.map (Visit.under j)).filter (Visit.isAt moment (i :: place)) = [] := by
  simp [Visit.isAt, Visit.under, h]

/-- only one part has visits at places that start with its index -/
theorem filter_flatten_mapIdx {α β : Type} (q : α → Bool) (f : Nat → β → List α) {i : Nat}
    (h : ∀ j b, j ≠ i → (f j b).filter q = []) (bs : List β) :
    (bs.mapIdx f).flatten.filter q = (bs[i]?.map fun b => (f i b).filter q).getD [] := by
  induction bs generalizing f i with
  | nil => rfl
  | cons b bs ih =>
    rw [List.mapIdx_cons, List.flatten_cons, List.filter_append]
    cases i with
    | zero =>
      have hrest : (bs.mapIdx fun j => f (j + 1)).flatten.filter q = [] := by
        rw [List.filter_flatten, List.flatten_eq_nil_iff]
        intro l hl
        obtain ⟨a, ha, rfl⟩ := List.mem_map.mp hl
        obtain ⟨j, hj, rfl⟩ := List.mem_mapIdx.mp ha
        exact h _ _ (Nat.succ_ne_zero j)
      rw [hrest, List.append_nil]
      rfl
    | succ i =>
      rw [h 0 b (Nat.succ_ne_zero i).symm, List.nil_append, List.getElem?_cons_succ]
      exact ih _ fun j c hj => h (j + 1) c (by omega)

/-- every place is entered once and left once, by the node that is there -/
theorem Node.filter_tour (moment : Moment) (n : Node) (place : List Nat) :
    n.tour.filter (Visit.isAt moment place)
      = (n.at? place).toList.map (Visit.mk moment place) := by
  induction place generalizing n with
  | nil =>
    have hinner : (n.parts.mapIdx fun i part => part.tour.map (Visit.under i)).flatten.filter
        (Visit.isAt moment []) = [] := by
      rw [List.filter_eq_nil_iff]
      intro v hv
      obtain ⟨a, ha, hv⟩ := List.mem_flatten.mp hv
      obtain ⟨i, hi, rfl⟩ := List.mem_mapIdx.mp ha
      obtain ⟨w, _, rfl⟩ := List.mem_map.mp hv
      simp [Visit.isAt, Visit.under]
    rw [Node.tour_eq, List.filter_append, List.filter_cons, hinner]
    cases moment <;> rfl
  | cons i place ih =>
    have hends : ∀ at_, Visit.isAt moment (i :: place) ⟨at_, [], n⟩ = false := by
      intro at_
      simp [Visit.isAt]
    rw [Node.tour_eq, List.filter_append, List.filter_cons, hends, List.filter_singleton, hends]
    rw [filter_flatten_mapIdx _ _ fun j part hj => filter_under_of_ne moment hj place part.tour]
    simp only [filter_under_self, ih, Node.at?]
    cases n.parts[i]? with
    | none => rfl
    | some part =>
      show List.map _ (List.map _ (part.at? place).toList) ++ [] = _
      rw [List.map_map, List.append_nil]
      rfl

/-! ### mappers that keep their nodes -/

/-- all hooks as one -/
def Mapper.hook {m : Type → Type} [Functor m] (μ : Mapper m) : Moment → Node → m Node
  | .enter, .program p => .program <$> μ.enterProgram p
  | .leave, .program p => .program <$> μ.leaveProgram p
  | .enter, .func f => .func <$> μ.enterFunc f
  | .leave, .func f => .func <$> μ.leaveFunc f
  | .enter, .expr e => .expr <$> μ.enterExpr e
  | .leave, .expr e => .expr <$> μ.leaveExpr e
  | .enter, .binding b => .binding <$> μ.enterBinding b
  | .leave, .binding b => .binding <$> μ.leaveBinding b
  | .enter, .comp c => .comp <$> μ.enterComp c
  | .leave, .comp c => .comp <$> μ.leaveComp c
  | .enter, .imm a => .imm <$> μ.enterImm a
  | .leave, .imm a => .imm <$> μ.leaveImm a

namespace Mapper

variable {σ α β : Type} (μ : Mapper (StateM σ))

/-- every hook gives back its node, whatever it does to the state -/
def IsObserver : Prop := ∀ moment n s, ((μ.hook moment n).run s).1 = n

/-- the state after the call of a hook -/
def after (s : σ) (e : Event) : σ := ((μ.hook e.1 e.2).run s).2

/-- The action gives `a`, and to the state it does what the calls of hooks do. -/
def Gives (x : StateM σ α) (a : α) (events : List Event) : Prop :=
  ∀ s, x.run s = (a, events.foldl μ.after s)

variable {μ} {x : StateM σ α} {a : α} {b : β} {es fs : List Event}

theorem Gives.pure (a : α) : μ.Gives (Pure.pure a) a [] := fun _ => rfl

theorem Gives.bind {f : α → StateM σ β} (hx : μ.Gives x a es) (hf : μ.Gives (f a) b fs) :
    μ.Gives (x >>= f) b (es ++ fs) := by
  intro s
  rw [StateT.run_bind, hx s, List.foldl_append]
  exact hf _

theorem Gives.map (hx : μ.Gives x a es) (g : α → β) :
    μ.Gives (x >>= fun a => Pure.pure (g a)) (g a) es := by
  have h := hx.bind (f := fun a => Pure.pure (g a)) (Gives.pure (g a))
  rwa [List.append_nil] at h

/-- the last action of a node rebuilds it and calls its leave hook -/
theorem Gives.last {g : α → β} {leave : β → StateM σ β} (hx : μ.Gives x a es)
    (hleave : μ.Gives (leave (g a)) b fs) :
    μ.Gives (x >>= fun a => Pure.pure (g a) >>= leave) b (es ++ fs) :=
  hx.bind ((Gives.pure (g a)).bind hleave)

theorem Gives.mapM {f : α → StateM σ α} {events : α → List Event} {as : List α}
    (h : ∀ a ∈ as, μ.Gives (f a) a (events a)) : μ.Gives (as.mapM f) as (as.flatMap events) := by
  induction as with
  | nil => exact .pure []
  | cons a as ih =>
    rw [List.mapM_cons, List.flatMap_cons]
    have hrest := ih fun b hb => h b (List.mem_cons_of_mem _ hb)
    exact (h a List.mem_cons_self).bind (hrest.map (a :: ·))

/-- one kind of hook is `hook` on the nodes of that kind -/
theorem IsObserver.gives (hμ : μ.IsObserver) {node : α → Node} (hnode : node.Injective)
    (moment : Moment) (hx : μ.hook moment (node a) = node <$> x) :
    μ.Gives x a [(moment, node a)] := by
  intro s
  have hfst := hμ moment (node a) s
  rw [hx] at hfst
  have hsnd : (x.run s).2 = μ.after s (moment, node a) := by
    rw [after, hx]
    rfl
  exact Prod.ext (hnode hfst) hsnd

end Mapper

section
variable {σ : Type} {μ : Mapper (StateM σ)} (hμ : μ.IsObserver)
include hμ

theorem Imm.mapM_gives (a : Imm) : μ.Gives (a.mapM μ) a (Node.imm a).events := by
  have hnode : Function.Injective Node.imm := fun _ _ h => Node.imm.inj h
  rw [Node.events_eq]
  exact (hμ.gives hnode .enter rfl).bind (hμ.gives hnode .leave rfl)

theorem Imm.mapM_list_gives (as : List Imm) :
    μ.Gives (as.mapM (Imm.mapM μ)) as ((as.map Node.imm).flatMap Node.events) := by
  rw [List.flatMap_map]
  exact Mapper.Gives.mapM fun a _ => a.mapM_gives hμ

mutual

theorem Comp.mapM_gives (n : Nat) (c : Comp) (h : c.height ≤ n) :
    μ.Gives (c.mapM μ n) c (Node.comp c).events := by
  match n with
  | 0 => exact absurd c.one_le_height (by omega)
  | n + 1 =>
    have hnode : Function.Injective Node.comp := fun _ _ h => Node.comp.inj h
    have hleave := hμ.gives hnode .leave (a := c) rfl
    rw [Comp.mapM, Node.events_eq]
    refine (hμ.gives hnode .enter rfl).bind ?_
    cases c with
    | imm a | prim1 _ a | tupleGet _ a | boxNew a | unbox a =>
      show μ.Gives _ _ ([Node.imm a].flatMap Node.events ++ _)
      rw [List.flatMap_singleton]
      exact (a.mapM_gives hμ).last hleave
    | prim2 _ a b | boxSet a b =>
      show μ.Gives _ _ ([Node.imm a, .imm b].flatMap Node.events ++ _)
      rw [List.flatMap_cons, List.flatMap_singleton, List.append_assoc]
      exact (a.mapM_gives hμ).bind ((b.mapM_gives hμ).last hleave)
    | adt _ _ as | tuple as | call _ as | callForeign _ as =>
      show μ.Gives _ _ ((as.map Node.imm ++ []).flatMap Node.events ++ _)
      rw [List.append_nil]
      exact (Imm.mapM_list_gives hμ as).last hleave
    | branch cond thenArm elseArm =>
      rw [Comp.height] at h
      have hthen := Expr.mapM_gives n thenArm (by omega)
      have helse := Expr.mapM_gives n elseArm (by omega)
      show μ.Gives _ _ ([Node.imm cond, .expr thenArm, .expr elseArm].flatMap Node.events ++ _)
      rw [List.flatMap_cons, List.flatMap_cons, List.flatMap_singleton]
      rw [List.append_assoc, List.append_assoc]
      exact (cond.mapM_gives hμ).bind (hthen.bind (helse.last hleave))
    | fail _ => exact (Mapper.Gives.pure _).bind hleave

theorem Binding.mapM_gives (n : Nat) (b : Binding) (h : b.height ≤ n) :
    μ.Gives (b.mapM μ n) b (Node.binding b).events := by
  obtain ⟨id, comp, span⟩ := b
  rw [Binding.height] at h
  match n with
  | 0 => omega
  | n + 1 =>
    have hnode : Function.Injective Node.binding := fun _ _ h => Node.binding.inj h
    have hcomp := Comp.mapM_gives n comp (by omega)
    rw [Binding.mapM, Node.events_eq]
    show μ.Gives _ _ (_ :: [Node.comp comp].flatMap Node.events ++ _)
    rw [List.flatMap_singleton]
    exact (hμ.gives hnode .enter rfl).bind (hcomp.bind (hμ.gives hnode .leave rfl))

theorem Expr.mapM_gives (n : Nat) (e : Expr) (h : e.height ≤ n) :
    μ.Gives (e.mapM μ n) e (Node.expr e).events := by
  match n with
  | 0 => exact absurd h (by cases e <;> rw [Expr.height] <;> omega)
  | n + 1 =>
    have hnode : Function.Injective Node.expr := fun _ _ h => Node.expr.inj h
    have hleave := hμ.gives hnode .leave (a := e) rfl
    rw [Expr.mapM, Node.events_eq]
    refine (hμ.gives hnode .enter rfl).bind ?_
    cases e with
    | letIn kind bindings body =>
      rw [Expr.height] at h
      have hbindings : μ.Gives (bindings.mapM (Binding.mapM μ n)) bindings
          ((bindings.map Node.binding).flatMap Node.events) := by
        rw [List.flatMap_map]
        refine Mapper.Gives.mapM fun b hb => Binding.mapM_gives n b ?_
        have := Binding.height_le_heights hb
        omega
      have hbody := Expr.mapM_gives n body (by omega)
      show μ.Gives _ _ ((bindings.map Node.binding ++ [Node.expr body]).flatMap Node.events ++ _)
      rw [List.flatMap_append, List.flatMap_singleton, List.append_assoc]
      exact hbindings.bind (hbody.last hleave)
    | seq comp rest =>
      rw [Expr.height] at h
      have hcomp := Comp.mapM_gives n comp (by omega)
      have hrest := Expr.mapM_gives n rest (by omega)
      show μ.Gives _ _ ([Node.comp comp, .expr rest].flatMap Node.events ++ _)
      rw [List.flatMap_cons, List.flatMap_singleton, List.append_assoc]
      exact hcomp.bind (hrest.last hleave)
    | comp comp =>
      rw [Expr.height] at h
      have hcomp := Comp.mapM_gives n comp (by omega)
      show μ.Gives _ _ ([Node.comp comp].flatMap Node.events ++ _)
      rw [List.flatMap_singleton]
      exact hcomp.last hleave

end

theorem Func.mapM_gives (n : Nat) (f : Func) : μ.Gives (f.mapM μ n) f (Node.func f).events := by
  have hnode : Function.Injective Node.func := fun _ _ h => Node.func.inj h
  have hbody := Expr.mapM_gives hμ (n + f.height) f.body (Nat.le_add_left _ _)
  rw [Func.mapM, Node.events_eq]
  show μ.Gives _ _ (_ :: [Node.expr f.body].flatMap Node.events ++ _)
  rw [List.flatMap_singleton]
  exact (hμ.gives hnode .enter rfl).bind (hbody.bind (hμ.gives hnode .leave rfl))

theorem Program.mapM_gives (n : Nat) (p : Program) :
    μ.Gives (p.mapM μ n) p (Node.program p).events := by
  have hnode : Function.Injective Node.program := fun _ _ h => Node.program.inj h
  have hfunctions : μ.Gives (p.functions.mapM (Func.mapM μ n)) p.functions
      ((p.functions.map Node.func).flatMap Node.events) := by
    rw [List.flatMap_map]
    exact Mapper.Gives.mapM fun f _ => f.mapM_gives hμ n
  have hbody := Expr.mapM_gives hμ (n + p.body.height) p.body (Nat.le_add_left _ _)
  rw [Program.mapM, Node.events_eq]
  show μ.Gives _ _ (_ :: (p.functions.map Node.func ++ [Node.expr p.body]).flatMap Node.events ++ _)
  rw [List.flatMap_append, List.flatMap_singleton, List.cons_append, List.append_assoc]
  refine (hμ.gives hnode .enter rfl).bind (hfunctions.bind (hbody.bind ?_))
  exact hμ.gives hnode .leave rfl

end

/-! ### recording the calls -/

/-- a hook that notes its call -/
def note {α : Type} (moment : Moment) (node : α → Node) (a : α) : StateM (List Event) α := do
  modify (· ++ [(moment, node a)])
  return a

/-- the mapper whose hooks only note their calls -/
def Mapper.recorder : Mapper (StateM (List Event)) where
  enterProgram := note .enter .program
  leaveProgram := note .leave .program
  enterFunc := note .enter .func
  leaveFunc := note .leave .func
  enterExpr := note .enter .expr
  leaveExpr := note .leave .expr
  enterBinding := note .enter .binding
  leaveBinding := note .leave .binding
  enterComp := note .enter .comp
  leaveComp := note .leave .comp
  enterImm := note .enter .imm
  leaveImm := note .leave .imm

theorem Mapper.recorder_hook (moment : Moment) (n : Node) (s : List Event) :
    (recorder.hook moment n).run s = (n, s ++ [(moment, n)]) := by
  cases moment <;> cases n <;> rfl

theorem Mapper.isObserver_recorder : recorder.IsObserver :=
  fun moment n s => congrArg Prod.fst (recorder_hook moment n s)

theorem Mapper.foldl_recorder (es s : List Event) : es.foldl recorder.after s = s ++ es := by
  induction es generalizing s with
  | nil => exact (List.append_nil s).symm
  | cons e es ih =>
    have hafter : recorder.after s e = s ++ [e] := congrArg Prod.snd (recorder_hook e.1 e.2 s)
    rw [List.foldl_cons, ih, hafter, List.append_assoc]
    rfl

/-- A mapper that keeps its nodes gives back the program, and its state goes through the hooks in
the order of the tour, which is what a recorder gets to see.  What a tour enters it leaves, in the
opposite order, and at every place of the program the node that is there is entered once and left
once. -/
theorem Program.mapM_tour (p : Program) :
    (∀ (σ : Type) (μ : Mapper (StateM σ)), μ.IsObserver → ∀ (slack : Nat) (s : σ),
      (p.mapM μ slack).run s = (p, (Node.program p).events.foldl μ.after s)) ∧
    (∀ slack : Nat, (p.mapM Mapper.recorder slack).run [] = (p, (Node.program p).events)) ∧
    Nested (Node.program p).tour ∧
    ∀ (moment : Moment) (place : List Nat),
      (Node.program p).tour.filter (Visit.isAt moment place)
        = ((Node.program p).at? place).toList.map (Visit.mk moment place) := by
  refine ⟨fun _ μ hμ slack s => p.mapM_gives hμ slack s, fun slack => ?_,
    (Node.program p).nested_tour, fun moment place => (Node.program p).filter_tour moment place⟩
  have h := p.mapM_gives Mapper.isObserver_recorder slack []
  rwa [Mapper.foldl_recorder, List.nil_append] at h

/-- `let x = (if c then 1 else 2) in x` -/
def chosen (c : Imm) : Program :=
  .ofBody (.letOne ⟨"x", 1⟩ (.branch c (.imm (.int 1)) (.imm (.int 2))) (.imm (.id ⟨"x", 1⟩)))

/-- the hooks of a recorder return their nodes, and the tour goes into the arms in order -/
theorem mapM_tour_chosen :
    Mapper.recorder.IsObserver ∧
    ((chosen (.bool true)).mapM Mapper.recorder 0).run []
      = (chosen (.bool true),
        (Node.program (chosen (.bool true))).events.foldl Mapper.recorder.after []) ∧
    (Node.program (chosen (.bool true))).at? [0, 0, 0, 2, 0, 0] = some (.imm (.int 2)) ∧
    (Node.program (chosen (.bool true))).tour.filter (Visit.isAt .leave [0, 0, 0, 2, 0, 0])
      = [⟨.leave, [0, 0, 0, 2, 0, 0], .imm (.int 2)⟩] :=
  ⟨Mapper.isObserver_recorder, (Program.mapM_tour _).1 _ _ Mapper.isObserver_recorder 0 [], rfl,
    (Program.mapM_tour (chosen (.bool true))).2.2.2 .leave [0, 0, 0, 2, 0, 0]⟩

end AnfWasm
