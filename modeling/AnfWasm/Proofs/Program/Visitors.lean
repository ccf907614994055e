import AnfWasm.Program.Visitor
import AnfWasm.Proofs.Program.Traversal

/-!
# Visitors

A visitor goes through the children of a node (`Node.visit_eq`) and so does the walk
(`Node.walk_eq`), hence a visitor that takes notes gets to see the steps of the walk
(`Program.visit_notes`).

An occurrence of an identifier stands at a place: which child to take at each level
(`Program.occurrence?`).  Places in lexicographic order are the depth-first order.
-/

namespace AnfWasm

open Rules (Event)

/-! ### children -/

def Child.node? : Child → Option Node
  | .node n => some n
  | _ => none

/-- the parts of a node are those of its children that are nodes -/
theorem Node.filterMap_children (n : Node) : n.children.filterMap Child.node? = n.parts := by
  cases n with
  | program p => simp [Node.children, Node.parts, Child.node?, Function.comp_def]
  | func f => simp [Node.children, Node.parts, List.filterMap_cons, Child.node?, Function.comp_def]
  | expr e => cases e <;> simp [Node.children, Node.parts, Child.node?, Function.comp_def]
  | binding b => rfl
  | comp c =>
    cases c <;> simp [Node.children, Comp.children, Node.parts, Comp.operands, Comp.arms,
      List.filterMap_cons, Child.node?, Function.comp_def]
  | imm a => cases a <;> rfl

theorem Node.mem_parts_of_mem_children {n part : Node} (h : .node part ∈ n.children) :
    part ∈ n.parts := by
  rw [← n.filterMap_children]
  exact List.mem_filterMap.mpr ⟨.node part, h, rfl⟩

/-! ### visits go through the children -/

section
variable {m : Type → Type} [Monad m] (v : Visitor m)

/-- all hooks for nodes as one -/
def Visitor.hook : Node → m Unit → m Unit
  | .program p => v.program p
  | .func f => v.func f
  | .expr e => v.expr e
  | .binding b => v.binding b
  | .comp c => v.comp c
  | .imm a => v.imm a

def Node.visit : Node → m Unit
  | .program p => p.visit v
  | .func f => f.visit v
  | .expr e => e.visit v
  | .binding b => b.visit v
  | .comp c => c.visit v
  | .imm a => a.visit v

def Child.visit : Child → m Unit
  | .imported i => v.imported i
  | .binder x => v.binder x
  | .use x => v.ident x
  | .node n => n.visit v

theorem Binding.visits_eq (bs : List Binding) :
    Binding.visits v bs = bs.forM (Binding.visit v) := by
  induction bs with
  | nil => rfl
  | cons b bs ih =>
    rw [Binding.visits, ih]
    rfl

theorem Node.visit_eq [LawfulMonad m] (n : Node) :
    n.visit v = v.hook n (n.children.forM (Child.visit v)) := by
  cases n with
  | program p => simp [Node.visit, Program.visit, Visitor.hook, Node.children, Child.visit]
  | func f => simp [Node.visit, Func.visit, Visitor.hook, Node.children, Child.visit]
  | expr e =>
    cases e <;>
      simp [Node.visit, Expr.visit, Visitor.hook, Node.children, Binding.visits_eq, Child.visit]
  | binding b =>
    cases b
    simp [Node.visit, Binding.visit, Visitor.hook, Node.children, Child.visit]
  | comp c =>
    cases c <;>
      simp [Node.visit, Comp.visit, Visitor.hook, Node.children, Comp.children, Child.visit]
  | imm a => cases a <;> simp [Node.visit, Imm.visit, Visitor.hook, Node.children, Child.visit]

end

/-! ### visitors that take notes -/

section
variable {β : Type}

/-- The action adds those notes. -/
def Writes (x : StateM (List β) Unit) (notes : List β) : Prop := ∀ s, x.run s = ((), s ++ notes)

theorem Writes.pure : Writes (pure ()) ([] : List β) :=
  fun s => congrArg (Prod.mk ()) (List.append_nil s).symm

theorem Writes.bind {x y : StateM (List β) Unit} {as bs : List β} (hx : Writes x as)
    (hy : Writes y bs) : Writes (x >>= fun _ => y) (as ++ bs) := by
  intro s
  rw [StateT.run_bind, hx s, ← List.append_assoc]
  exact hy _

theorem Writes.forM {α : Type} {f : α → StateM (List β) Unit} {notes : α → List β} {as : List α}
    (h : ∀ a ∈ as, Writes (f a) (notes a)) : Writes (as.forM f) (as.flatMap notes) := by
  induction as with
  | nil => exact .pure
  | cons a as ih =>
    rw [List.flatMap_cons]
    exact (h a List.mem_cons_self).bind (ih fun b hb => h b (List.mem_cons_of_mem _ hb))

/-- a hook that notes what it is called with -/
def jot (b : β) : StateM (List β) Unit := modify (· ++ [b])

theorem writes_jot (b : β) : Writes (jot b) [b] := fun _ => rfl

/-- The visitor takes those notes of each step, and looks into the nodes that it should. -/
structure Visitor.Notes (v : Visitor (StateM (List β))) (descend : Node → Bool)
    (notes : Step → List β) : Prop where
  imported : ∀ i, Writes (v.imported i) (notes (.binder i.id))
  binder : ∀ x, Writes (v.binder x) (notes (.binder x))
  ident : ∀ x, Writes (v.ident x) (notes (.use x))
  node : ∀ n {inside : StateM (List β) Unit} {within : List β}, Writes inside within →
    Writes (v.hook n inside)
      (notes (.opened n) ++ if descend n then within ++ notes (.closed n) else [])

variable {v : Visitor (StateM (List β))} {descend : Node → Bool} {notes : Step → List β}

theorem Node.visit_notes (hv : v.Notes descend notes) (n : Node) :
    Writes (n.visit v) ((n.walk descend).flatMap notes) := by
  induction n using Node.induction_parts with
  | step n ih =>
    have hchildren : Writes (n.children.forM (Child.visit v))
        ((n.children.flatMap (Child.walk descend)).flatMap notes) := by
      rw [List.flatMap_assoc]
      refine .forM fun child hchild => ?_
      cases child with
      | imported i => exact List.flatMap_singleton notes _ ▸ hv.imported i
      | binder x => exact List.flatMap_singleton notes _ ▸ hv.binder x
      | use x => exact List.flatMap_singleton notes _ ▸ hv.ident x
      | node part => exact ih part (Node.mem_parts_of_mem_children hchild)
    have hnode := hv.node n hchildren
    rw [Node.visit_eq, Node.walk_eq, Node.around, List.flatMap_cons]
    cases hd : descend n with
    | true => simpa [hd] using hnode
    | false => simpa [hd] using hnode

end

/-! ### the visitors of nodes and of identifiers -/

/-- An identifier where it is bound or where it is used. -/
inductive Occurrence where
  | binder (x : Ident)
  | use (x : Ident)

def Occurrence.ident : Occurrence → Ident
  | .binder x | .use x => x

def Step.occurrence? : Step → Option Occurrence
  | .binder x => some (.binder x)
  | .use x => some (.use x)
  | _ => none

namespace Visitor

/-- notes every node and looks into it -/
def nodes : Visitor (StateM (List Node)) where
  imm a inside := do
    jot (.imm a)
    inside
  comp c inside := do
    jot (.comp c)
    inside
  binding b inside := do
    jot (.binding b)
    inside
  expr e inside := do
    jot (.expr e)
    inside
  func f inside := do
    jot (.func f)
    inside
  program p inside := do
    jot (.program p)
    inside

/-- has a hook for identifiers only -/
def idents : Visitor (StateM (List Ident)) where
  ident := jot

/-- has a hook for binders and one for the other identifiers -/
def occurrences : Visitor (StateM (List Occurrence)) where
  ident x := jot (.use x)
  binder x := jot (.binder x)

theorem notes_nodes : nodes.Notes everything fun t => t.opened?.toList where
  imported _ := .pure
  binder _ := .pure
  ident _ := .pure
  node n inside within h := by
    have hn : nodes.hook n inside = jot n >>= fun _ => inside := by cases n <;> rfl
    rw [hn]
    simpa [everything, Step.opened?] using (writes_jot n).bind h

theorem notes_idents : idents.Notes everything fun t => t.ident?.toList where
  imported i := writes_jot i.id
  binder := writes_jot
  ident := writes_jot
  node n inside within h := by
    have hn : idents.hook n inside = inside := by cases n <;> rfl
    rw [hn]
    simpa [everything, Step.ident?] using h

theorem notes_occurrences : occurrences.Notes everything fun t => t.occurrence?.toList where
  imported i := writes_jot (Occurrence.binder i.id)
  binder x := writes_jot (Occurrence.binder x)
  ident x := writes_jot (Occurrence.use x)
  node n inside within h := by
    have hn : occurrences.hook n inside = inside := by cases n <;> rfl
    rw [hn]
    simpa [everything, Step.occurrence?] using h

end Visitor

/-! ### places of occurrences -/

/-- the occurrence at a place: which child to take at each level -/
def Child.occurrence? : Child → List Nat → Option Occurrence
  | .imported i, [] => some (.binder i.id)
  | .binder x, [] => some (.binder x)
  | .use x, [] => some (.use x)
  | .node n, i :: place => n.children[i]? >>= fun child => child.occurrence? place
  | _, _ => none

def Program.occurrence? (p : Program) : List Nat → Option Occurrence :=
  (Child.node (.program p)).occurrence?

/-- A place and the occurrence there. -/
abbrev Sighting := List Nat × Occurrence

/-- The entries are the occurrences with their places, in depth-first order. -/
structure Catalogue (occurrence? : List Nat → Option Occurrence) (entries : List Sighting) :
    Prop where
  complete : ∀ place o, (place, o) ∈ entries ↔ occurrence? place = some o
  ordered : (entries.map Prod.fst).Pairwise (List.Lex (· < ·))

/-- the occurrence at a place below those children -/
def occurrenceIn? (children : List Child) : List Nat → Option Occurrence
  | [] => none
  | i :: place => children[i]? >>= fun child => child.occurrence? place

theorem Child.occurrence?_node (n : Node) :
    (Child.node n).occurrence? = occurrenceIn? n.children := by
  funext place
  cases place <;> rfl

/-- a sighting as seen from one level up, at the first child -/
def Sighting.first (e : Sighting) : Sighting := (0 :: e.1, e.2)

/-- a sighting when there is one more child before it -/
def Sighting.later : Sighting → Sighting
  | ([], o) => ([], o)
  | (i :: place, o) => ((i + 1) :: place, o)

theorem Catalogue.leaf {child : Child} {o : Occurrence} (h : child.occurrence? [] = some o)
    (hcons : ∀ i place, child.occurrence? (i :: place) = none) :
    Catalogue child.occurrence? [([], o)] where
  complete place o' := by
    cases place with
    | nil => simp [h, eq_comm]
    | cons i place => simp [hcons]
  ordered := List.pairwise_singleton _ _

theorem Catalogue.nil : Catalogue (occurrenceIn? []) [] where
  complete place o := by cases place <;> simp [occurrenceIn?]
  ordered := .nil

theorem mem_map_first {es : List Sighting} {place : List Nat} {o : Occurrence} :
    (place, o) ∈ es.map Sighting.first ↔ ∃ rest, place = 0 :: rest ∧ (rest, o) ∈ es := by
  simp only [List.mem_map, Sighting.first, Prod.ext_iff, Prod.exists]
  constructor
  · rintro ⟨rest, o', he, rfl, rfl⟩
    exact ⟨rest, rfl, he⟩
  · rintro ⟨rest, rfl, he⟩
    exact ⟨rest, o, he, rfl, rfl⟩

theorem mem_map_later {es : List Sighting} (h : ∀ o, ([], o) ∉ es) {place : List Nat}
    {o : Occurrence} :
    (place, o) ∈ es.map Sighting.later ↔
      ∃ i rest, place = (i + 1) :: rest ∧ (i :: rest, o) ∈ es := by
  rw [List.mem_map]
  constructor
  · rintro ⟨⟨_ | ⟨i, rest⟩, o'⟩, he, heq⟩
    · exact absurd he (h o')
    · obtain ⟨rfl, rfl⟩ := Prod.mk.inj heq
      exact ⟨i, rest, rfl, he⟩
  · rintro ⟨i, rest, rfl, he⟩
    exact ⟨(i :: rest, o), he, rfl⟩

theorem lex_later {a b : Sighting} (h : List.Lex (· < ·) a.1 b.1) (ha : a.1 ≠ []) :
    List.Lex (· < ·) (Sighting.later a).1 (Sighting.later b).1 := by
  obtain ⟨pa, oa⟩ := a
  obtain ⟨pb, ob⟩ := b
  cases h with
  | nil => exact absurd rfl ha
  | cons h => exact .cons h
  | rel h => exact .rel (Nat.succ_lt_succ h)

theorem Catalogue.cons {child : Child} {children : List Child} {entries rest : List Sighting}
    (h : Catalogue child.occurrence? entries) (hrest : Catalogue (occurrenceIn? children) rest) :
    Catalogue (occurrenceIn? (child :: children))
      (entries.map Sighting.first ++ rest.map Sighting.later) := by
  have hnil : ∀ o, ([], o) ∉ rest := fun o ho =>
    absurd ((hrest.complete [] o).mp ho) (by simp [occurrenceIn?])
  constructor
  · intro place o
    rw [List.mem_append, mem_map_first, mem_map_later hnil]
    rcases place with _ | ⟨_ | i, place⟩
    · simp [occurrenceIn?]
    · simp [occurrenceIn?, h.complete]
    · simp [occurrenceIn?, hrest.complete]
  · rw [List.map_append, List.pairwise_append]
    refine ⟨?_, ?_, ?_⟩
    · rw [List.map_map, List.pairwise_map]
      exact (List.pairwise_map.mp h.ordered).imp .cons
    · rw [List.map_map, List.pairwise_map]
      refine (List.pairwise_map.mp hrest.ordered).imp_of_mem fun {a b} ha _ hab => ?_
      refine lex_later hab fun hempty => hnil a.2 ?_
      rwa [← hempty]
    -- the first index decides: it is 0 below the first child and positive below the others
    · intro a ha b hb
      obtain ⟨e, he, rfl⟩ := List.mem_map.mp ha
      obtain ⟨e', he', rfl⟩ := List.mem_map.mp hb
      obtain ⟨_, h₁, -⟩ := mem_map_first.mp he
      obtain ⟨i, _, h₂, -⟩ := (mem_map_later hnil).mp he'
      rw [h₁, h₂]
      exact .rel (Nat.succ_pos i)

/-- the occurrences that the walk meets -/
def Child.occurrences (child : Child) : List Occurrence :=
  (child.walk everything).filterMap Step.occurrence?

theorem exists_catalogue_children {children : List Child}
    (h : ∀ child ∈ children, ∃ entries, Catalogue child.occurrence? entries ∧
      entries.map Prod.snd = child.occurrences) :
    ∃ entries, Catalogue (occurrenceIn? children) entries ∧
      entries.map Prod.snd = children.flatMap Child.occurrences := by
  induction children with
  | nil => exact ⟨[], .nil, rfl⟩
  | cons child children ih =>
    obtain ⟨entries, hc, ho⟩ := h child List.mem_cons_self
    obtain ⟨rest, hcs, hos⟩ := ih fun f hf => h f (List.mem_cons_of_mem _ hf)
    have hfirst : Prod.snd ∘ Sighting.first = Prod.snd := rfl
    have hlater : Prod.snd ∘ Sighting.later = Prod.snd := by
      funext e
      rcases e with ⟨_ | _, _⟩ <;> rfl
    refine ⟨_, hc.cons hcs, ?_⟩
    rw [List.map_append, List.map_map, List.map_map, hfirst, hlater, ho, hos, List.flatMap_cons]

theorem Node.exists_catalogue (n : Node) :
    ∃ entries, Catalogue (Child.node n).occurrence? entries ∧
      entries.map Prod.snd = (Child.node n).occurrences := by
  induction n using Node.induction_parts with
  | step n ih =>
    have hwalk : (Child.node n).occurrences = n.children.flatMap Child.occurrences := by
      show (n.walk everything).filterMap Step.occurrence? = _
      rw [Node.filterMap_walk]
      exact List.append_nil _
    rw [hwalk, Child.occurrence?_node]
    refine exists_catalogue_children fun child hchild => ?_
    cases child with
    | imported i => exact ⟨_, .leaf rfl fun _ _ => rfl, rfl⟩
    | binder x => exact ⟨_, .leaf rfl fun _ _ => rfl, rfl⟩
    | use x => exact ⟨_, .leaf rfl fun _ _ => rfl, rfl⟩
    | node part => exact ih part (Node.mem_parts_of_mem_children hchild)

/-! ### nodes -/

def entered? : Event → Option Node
  | (.enter, n) => some n
  | (.leave, _) => none

/-- the walk opens the nodes that a mapper enters -/
theorem Node.opened_walk (n : Node) :
    (n.walk everything).filterMap Step.opened? = n.events.filterMap entered? := by
  induction n using Node.induction_parts with
  | step n ih =>
    have hparts : n.children.flatMap (fun child => (child.walk everything).filterMap Step.opened?)
        = n.parts.flatMap fun part => part.events.filterMap entered? := by
      rw [← n.filterMap_children, List.filterMap_eq_flatMap_toList, List.flatMap_assoc]
      refine List.flatMap_congr fun child hchild => ?_
      cases child with
      | imported i | binder x | use x => rfl
      | node part =>
        rw [Child.node?, Option.toList_some, List.flatMap_singleton]
        exact ih part (Node.mem_parts_of_mem_children hchild)
    rw [Node.filterMap_walk, hparts, Node.events_eq]
    simp only [List.filterMap_eq_flatMap_toList]
    simp [Step.opened?, entered?, List.flatMap_assoc]

theorem Program.visit_notes {β : Type} {v : Visitor (StateM (List β))} {f : Step → Option β}
    (hv : v.Notes everything fun t => (f t).toList) (p : Program) :
    ((p.visit v).run []).2 = (p.walk everything).filterMap f := by
  have h := Node.visit_notes hv (.program p) []
  rw [← List.filterMap_eq_flatMap_toList] at h
  exact congrArg Prod.snd h

/-- A visitor that looks into everything meets the nodes that a mapper enters, in the same order.
One that tells binders from uses meets all occurrences of identifiers, depth first and each of them
once, and one that has a hook for identifiers only meets the same identifiers. -/
theorem Program.visit_agrees (p : Program) :
    (∀ slack : Nat, ((p.visit .nodes).run []).2
      = ((p.mapM Mapper.recorder slack).run []).2.filterMap entered?) ∧
    (∃ entries : List Sighting, Catalogue p.occurrence? entries ∧
      ((p.visit .occurrences).run []).2 = entries.map Prod.snd) ∧
    ((p.visit .idents).run []).2 = ((p.visit .occurrences).run []).2.map Occurrence.ident ∧
    ((p.visit .idents).run []).2 = p.identifiers := by
  rw [p.visit_notes Visitor.notes_nodes, p.visit_notes Visitor.notes_occurrences,
    p.visit_notes Visitor.notes_idents]
  refine ⟨fun slack => ?_, ?_, ?_, rfl⟩
  · have h := p.mapM_gives Mapper.isObserver_recorder slack []
    rw [h, Mapper.foldl_recorder, List.nil_append]
    exact (Node.program p).opened_walk
  · obtain ⟨entries, hc, ho⟩ := (Node.program p).exists_catalogue
    exact ⟨entries, hc, ho.symm⟩
  · rw [List.map_filterMap]
    refine List.filterMap_congr fun t _ => ?_
    cases t <;> rfl

example : (chosen (.bool true)).occurrence? [0, 0, 0] = some (.binder ⟨"x", 1⟩) := rfl

end AnfWasm
