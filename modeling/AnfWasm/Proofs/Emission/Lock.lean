import AnfWasm.Emission.Basic
import AnfWasm.Proofs.Store.Actions
import AnfWasm.Proofs.Store.Files

/-!
# Emission under a lock marker

An emission takes nothing away from the files but its own marker (`ends_emit_grows`).  It does
nothing at all if there is something under the path of its marker (`ends_emit_of_stat?`), and leaves
nothing there otherwise.
-/

namespace AnfWasm

variable {α : Type}

/-! ### markers -/

namespace Lock

variable {fs fs' : Files} {p : Path}

theorem ends_acquire :
    Ends (acquire p : Emitting (StateM Files) Unit).run fs fun r fs' =>
      (r = .ok () ∧ fs.createNew p = .ok fs') ∨ ∃ e, fs.createNew p = .error e ∧
        r = .error (if e = .alreadyExists then .collision p else .lock p e) ∧ fs' = fs := by
  refine Ends.change_run (fun fs' h _ => .inl ⟨rfl, h⟩) fun e h => ?_
  cases e
  all_goals exact fun _ => .inr ⟨_, h, rfl, rfl⟩

theorem ends_release {Q : Unit → Files → Prop} (hok : ∀ fs', fs.removeFile p = .ok fs' → Q () fs')
    (herr : ∀ e, fs.removeFile p = .error e → Q () fs) :
    Ends (release p : Log.Speaking (StateM Files) Unit) fs Q :=
  Ends.change (fun fs' h _ => hok fs' h) fun e h _ => herr e h

theorem ends_release_of_spot? {place : Place} {content : Bytes} (hspot : fs.spot? p = some place)
    (hfile : fs.get? place = some (.file content)) :
    Ends (release p : Log.Speaking (StateM Files) Unit) fs fun _ fs' => fs' = fs.erase place := by
  have hremove := Files.removeFile_of_spot? hspot hfile
  refine ends_release (fun fs' h => ?_) fun e h => ?_
  · exact (Except.ok.inj (hremove.symm.trans h)).symm
  · exact absurd (hremove.symm.trans h) (by simp)

/-- The files after work that grew them, under a marker that was new and has been removed. -/
def Released (p : Path) (fs fs' : Files) : Prop :=
  ∃ place fs₁, fs.spot? p = some place ∧ fs.get? place = none ∧
    (fs.insert place (.file [])).Grows fs₁ ∧ fs' = fs₁.erase place

theorem Released.grows (h : Released p fs fs') : fs.Grows fs' := by
  obtain ⟨place, fs₁, hspot, hget, hgrows, rfl⟩ := h
  have hnames := Files.names_ne_nil_of_spot? hspot
  have hnew := Files.createNew_grows (Files.createNew_of_spot? hspot hget)
  refine ⟨(hnew.trans hgrows).keeps.erase hget, fun hc => ?_⟩
  obtain ⟨content, hfile⟩ := hgrows.keeps.file (fs.get?_insert_self (.file []) hnames)
  exact ((hnew.trans hgrows).closed hc).erase hnames (by simp [hfile])

theorem Released.stat? (h : Released p fs fs') : fs'.stat? p = none := by
  have hgrows := h.grows
  obtain ⟨place, fs₁, hspot, -, -, rfl⟩ := h
  have hspot' := Files.spot?_mono hgrows.keeps.dir hspot
  rw [Files.stat?_of_spot? hspot', Files.get?_erase_self fs₁ (Files.names_ne_nil_of_spot? hspot)]

theorem ends_holding {work : Emitting (StateM Files) α}
    (hwork : ∀ fs, Ends work.run fs fun _ fs' => fs.Grows fs') :
    Ends (holding p work).run fs fun _ fs' => fs' = fs ∨ Released p fs fs' := by
  refine Ends.bind_run ends_acquire (fun _ fs₁ hnew => ?_) fun _ _ h => ?_
  case refine_2 =>
    obtain ⟨hr, -⟩ | ⟨_, -, -, h⟩ := h
    · exact absurd hr (by simp)
    · exact .inl h
  obtain ⟨-, hnew⟩ | ⟨_, -, hr, -⟩ := hnew
  case inr => exact absurd hr (by simp)
  obtain ⟨place, hspot, hget, rfl⟩ := Files.createNew_ok hnew
  refine Ends.bind (hwork _) fun r fs₂ hgrows => ?_
  obtain ⟨content, hfile⟩ :=
    hgrows.keeps.file (fs.get?_insert_self (.file []) (Files.names_ne_nil_of_spot? hspot))
  have hspot₂ := Files.spot?_mono ((Files.createNew_grows hnew).trans hgrows).keeps.dir hspot
  exact (ends_release_of_spot? hspot₂ hfile).bind fun _ fs₃ h _ =>
    .inr ⟨place, fs₂, hspot, hget, hgrows, h⟩

theorem ends_holding_collision {work : Emitting (StateM Files) α} {place : Place} {e : Entry}
    (h : fs.spot? p = some place) (hget : fs.get? place = some e) :
    Ends (holding p work).run fs fun r fs' => r = .error (.collision p) ∧ fs' = fs := by
  have hnew := Files.createNew_of_mem h hget
  refine Ends.bind_run ends_acquire (fun _ fs' h => ?_) fun e fs' h => ?_
  · obtain ⟨-, h⟩ | ⟨_, -, hr, -⟩ := h
    · exact absurd (hnew.symm.trans h) (by simp)
    · exact absurd hr (by simp)
  · obtain ⟨hr, -⟩ | ⟨err, herr, hr, hfs⟩ := h
    · exact absurd hr (by simp)
    · obtain rfl := Except.error.inj (hnew.symm.trans herr)
      exact ⟨congrArg Except.error (Except.error.inj hr), hfs⟩

end Lock

/-! ### the directory of an output -/

namespace FileSystem

section
variable {β : Type} {R : Files → Files → Prop}

/-- The files after an action are related to those before it. -/
def Moves (R : Files → Files → Prop) (x : StateM Files α) : Prop := ∀ fs, R fs (x fs).2

theorem moves_bind {x : StateM Files α} {f : α → StateM Files β}
    (htrans : ∀ {fs₁ fs₂ fs₃}, R fs₁ fs₂ → R fs₂ fs₃ → R fs₁ fs₃) (hx : Moves R x)
    (hf : ∀ a, Moves R (f a)) : Moves R (x >>= f) :=
  fun fs => htrans (hx fs) (hf (x fs).1 (x fs).2)

theorem moves_change {op : Files → Except FileError Files} (hrefl : ∀ fs, R fs fs)
    (hop : ∀ fs fs', op fs = .ok fs' → R fs fs') : Moves R (Files.change op) := by
  intro fs
  unfold Files.change
  cases h : op fs with
  | ok fs' => exact hop fs fs' h
  | error e => exact hrefl fs

/-- what the making of each directory does, the making of a chain does -/
theorem moves_makeChain (hrefl : ∀ fs, R fs fs)
    (htrans : ∀ {fs₁ fs₂ fs₃}, R fs₁ fs₂ → R fs₂ fs₃ → R fs₁ fs₃) {ps : List Path}
    (hstep : ∀ p ∈ ps, ∀ fs fs' : Files, fs.makeDir p = .ok fs' → R fs fs') :
    Moves R (makeChain ps) := by
  induction ps with
  | nil => exact hrefl
  | cons p ps ih =>
    have hchain := ih fun q hq => hstep q (List.mem_cons_of_mem _ hq)
    have hmake : Moves R (makeDir p) := moves_change hrefl (hstep p List.mem_cons_self)
    have hunless (e : FileError) : Moves R (unlessDir p e) := by
      refine moves_bind htrans (x := isDir p) hrefl fun b => ?_
      cases b <;> exact hrefl
    rw [makeChain]
    split
    · exact hrefl
    · refine moves_bind htrans hmake fun r => ?_
      split
      · exact hrefl
      · refine moves_bind htrans hchain fun r => ?_
        split
        · exact hrefl
        · refine moves_bind htrans hmake fun r => ?_
          split
          · exact hrefl
          · exact hunless _
      · exact hunless _

end

/-- a directory that is there is not made -/
theorem makeChain_of_isDir {fs : Files} {p : Path} {g : Files.Goal} (hne : p.text ≠ "")
    (h : fs.find p = .ok g) (hdir : fs.IsDir g) (ps : List Path) :
    (makeChain (p :: ps) : StateM Files _) fs = (.ok (), fs) := by
  have hmake : (makeDir p : StateM Files _) fs = (.error .alreadyExists, fs) := by
    show Files.change (·.makeDir p) fs = _
    rw [Files.change, Files.makeDir_of_isDir h hdir]
  have hthere : (isDir p : StateM Files _) fs = (true, fs) := by
    show (fs.isDir p, fs) = _
    rw [Files.isDir_of_isDir h hdir]
  rw [makeChain, if_neg (by simpa using hne)]
  show StateT.bind (makeDir p) _ fs = _
  rw [StateT.bind]
  simp only [hmake, bind]
  rw [unlessDir]
  show StateT.bind (isDir p : StateM Files _) _ fs = _
  rw [StateT.bind]
  simp only [hthere, bind]
  rfl

end FileSystem

namespace Emission

variable {fs fs' : Files} {output : Path}

theorem mem_ancestors_of_parent? {parent : Path} (h : output.parent? = some parent) :
    parent ∈ output.ancestors.tail := by
  refine List.mem_of_getElem? (i := 0) ?_
  rw [List.getElem?_tail]
  exact h

theorem above_of_parent? {parent : Path} (h : output.parent? = some parent) :
    parent.Above output :=
  Path.above_of_mem_ancestors (mem_ancestors_of_parent? h)

theorem above_of_mem_ancestors_parent? {parent q : Path} (h : output.parent? = some parent)
    (hq : q ∈ parent.ancestors) : q.Above output := by
  have hparent := above_of_parent? h
  have hq : q ∈ parent :: parent.ancestors.tail := hq
  rcases List.mem_cons.mp hq with rfl | hq
  · exact hparent
  · exact (Path.above_of_mem_ancestors hq).trans hparent

/-- no directory of an output has the name of its file on the way -/
theorem names_of_mem_ancestors_parent? {parent q : Path} {file : String}
    (hfile : output.fileName? = some file) (h : output.parent? = some parent)
    (hq : q ∈ parent.ancestors) : ∃ rest, file ∈ rest ∧ output.names = q.names ++ rest := by
  obtain ⟨rest, hrest, hnames⟩ := Path.names_of_mem_ancestors hfile (mem_ancestors_of_parent? h)
  have hq : q ∈ parent :: parent.ancestors.tail := hq
  rcases List.mem_cons.mp hq with rfl | hq
  · exact ⟨rest, hrest, hnames⟩
  · obtain ⟨mid, -, hmid⟩ := (Path.above_of_mem_ancestors hq).names
    exact ⟨mid ++ rest, List.mem_append_right _ hrest, by rw [hnames, hmid, List.append_assoc]⟩

theorem above_lock {q : Path} (h : q.Above output) : q.Above output.lock :=
  h.withSuffix (by simp) (by simp)

theorem ends_makeParent {R : Files → Files → Prop} (hrefl : ∀ fs, R fs fs)
    (htrans : ∀ {fs₁ fs₂ fs₃}, R fs₁ fs₂ → R fs₂ fs₃ → R fs₁ fs₃)
    (hstep : ∀ parent, output.parent? = some parent → ∀ q ∈ parent.ancestors,
      ∀ fs fs' : Files, fs.makeDir q = .ok fs' → R fs fs') :
    Ends (makeParent output : Emitting (StateM Files) Unit).run fs fun r fs' =>
      (∀ p, r ≠ .error (.collision p)) ∧ R fs fs' := by
  have hok (p : Path) : (.ok () : Except EmitError Unit) ≠ .error (.collision p) := by simp
  unfold makeParent
  split
  · exact fun _ => ⟨hok, hrefl fs⟩
  · rename_i parent h
    have hmoves : FileSystem.Moves R (FileSystem.makeDirs parent) :=
      FileSystem.moves_makeChain hrefl htrans (hstep parent h)
    cases parent.text.isEmpty with
    | true => exact fun _ => ⟨hok, hrefl fs⟩
    | false =>
      refine Ends.lift_run ?_
      split
      · exact fun _ => ⟨hok, hmoves fs⟩
      · refine fun _ => ⟨fun p h => ?_, hmoves fs⟩
        cases h

theorem ends_makeParent_of_find {g : Files.Goal} (h : fs.find output.lock = .ok g) :
    Ends (makeParent output : Emitting (StateM Files) Unit).run fs fun r fs' =>
      r = .ok () ∧ fs' = fs := by
  unfold makeParent
  split
  · exact fun _ => ⟨rfl, rfl⟩
  · rename_i parent hparent
    cases hempty : parent.text.isEmpty with
    | true => exact fun _ => ⟨rfl, rfl⟩
    | false =>
      have hne : parent.text ≠ "" := by simpa using hempty
      obtain ⟨g', hg', hdir⟩ := Files.find_above (above_lock (above_of_parent? hparent)) hne h
      have hchain := FileSystem.makeChain_of_isDir hne hg' hdir parent.ancestors.tail
      refine Ends.lift_run ?_
      have hdirs : (FileSystem.makeDirs parent : StateM Files _) fs = (.ok (), fs) := hchain
      rw [hdirs]
      exact fun _ => ⟨rfl, rfl⟩

/-! ### the path of a marker -/

/-- the last name of a marker's path is no dots -/
theorem names_lock (output : Path) : ∃ init last, output.lock.names = init ++ [last ++ ".lock"] ∧
    last ++ ".lock" ≠ "." ∧ last ++ ".lock" ≠ ".." ∧ ∀ s ∈ init, s ∈ output.segments := by
  obtain ⟨init, last, hp, -, hsuffix⟩ := output.names_withSuffix
  have hlock := hsuffix ".lock" (by simp) (by simp)
  have hlength : 5 ≤ (last ++ ".lock").length := by
    rw [String.length_append]
    exact Nat.le_add_left 5 _
  refine ⟨init, last, hlock, ?_, ?_, fun s hs => ?_⟩
  · exact fun h => absurd (h ▸ hlength) (by decide)
  · exact fun h => absurd (h ▸ hlength) (by decide)
  · have : s ∈ output.names := hp ▸ List.mem_append_left _ hs
    exact (Path.mem_names.mp this).1

theorem endsInSlash_lock (output : Path) : output.lock.endsInSlash = false := by
  simp [Path.endsInSlash, Path.lock, Path.withSuffix]

theorem dots_not_mem_names_lock (h : ".." ∉ output.segments) : ".." ∉ output.lock.names := by
  obtain ⟨init, last, hnames, -, hne, hinit⟩ := names_lock output
  rw [hnames, List.mem_append, List.mem_singleton, not_or]
  exact ⟨fun hmem => h (hinit _ hmem), Ne.symm hne⟩

theorem spot?_of_stat?_lock {e : Entry} (h : fs.stat? output.lock = some e) :
    ∃ place, fs.spot? output.lock = some place ∧ fs.get? place = some e := by
  obtain ⟨init, last, hnames, h1, h2, -⟩ := names_lock output
  exact Files.spot?_of_stat? hnames h1 h2 (endsInSlash_lock output) h

/-! ### emission -/

/-- why an artifact is not written -/
def Artifact.Fails (a : Artifact) (e : EmitError) : Prop :=
  a.content = .error e ∨ ∃ err, e = .write a.path err

theorem ends_writeArtifact (a : Artifact) :
    Ends (writeArtifact a : Emitting (StateM Files) Unit).run fs fun r fs' =>
      (r = .ok () ∧ ∃ content, a.content = .ok content ∧ fs.write a.path content = .ok fs') ∨
        ∃ e, r = .error e ∧ a.Fails e ∧ fs' = fs := by
  refine Ends.bind_run (Q := fun r fs' => r = .ok () ∧ fs' = fs) (fun _ => ⟨rfl, rfl⟩)
    (fun _ fs' h => ?_) fun _ _ h => absurd h.1 (by simp)
  obtain ⟨-, rfl⟩ := h
  cases hc : a.content with
  | error e => exact fun _ => .inr ⟨e, rfl, .inl hc, rfl⟩
  | ok content =>
    refine Ends.change_run (fun fs₁ h _ => .inl ⟨rfl, content, rfl, h⟩) fun err _ _ => ?_
    exact .inr ⟨_, rfl, .inr ⟨err, rfl⟩, rfl⟩

theorem ends_writeArtifact_grows (a : Artifact) :
    Ends (writeArtifact a : Emitting (StateM Files) Unit).run fs fun _ fs' => fs.Grows fs' := by
  refine (ends_writeArtifact a).imp fun r fs' h => ?_
  obtain ⟨-, content, -, hwrite⟩ | ⟨e, -, -, rfl⟩ := h
  · exact Files.write_grows hwrite
  · exact .refl _

theorem ends_writeAll (as : List Artifact) :
    Ends (writeAll as : Emitting (StateM Files) Unit).run fs fun _ fs' => fs.Grows fs' := by
  induction as generalizing fs with
  | nil => exact fun _ => .refl fs
  | cons a as ih =>
    refine Ends.bind_run (ends_writeArtifact_grows a) (fun _ fs₁ h => ?_) fun _ _ h => h
    exact ih.imp fun _ _ h' => h.trans h'

theorem ends_writing (render : Renderer) (module : Wasm.Module) (output : Path) (file : String)
    (o : Options) :
    Ends (do writeAll (artifacts render module output file o); return emittedOf output o :
      Emitting (StateM Files) Emitted).run fs fun _ fs' => fs.Grows fs' :=
  Ends.bind_run (ends_writeAll _) (fun _ _ h _ => h) fun _ _ h => h

/-- the first part of an emission makes directories, and the rest is done under the marker -/
theorem ends_emit {R : Files → Files → Prop} (hrefl : ∀ fs, R fs fs)
    (htrans : ∀ {fs₁ fs₂ fs₃}, R fs₁ fs₂ → R fs₂ fs₃ → R fs₁ fs₃)
    (hstep : ∀ q : Path, q.Above output → ∀ fs fs' : Files, fs.makeDir q = .ok fs' → R fs fs')
    (render : Renderer) (module : Wasm.Module) (o : Options) :
    Ends (emitWith render module output o : Emitting (StateM Files) Emitted).run fs fun _ fs' =>
      ∃ fs₁, R fs fs₁ ∧ (fs' = fs₁ ∨ Lock.Released output.lock fs₁ fs') := by
  unfold emitWith
  cases output.fileName? with
  | none => exact fun _ => ⟨fs, hrefl fs, .inl rfl⟩
  | some file =>
    refine Ends.bind_run (ends_makeParent hrefl htrans fun parent hp q hq =>
      hstep q (above_of_mem_ancestors_parent? hp hq)) (fun _ fs₁ h => ?_)
      fun _ fs₁ h => ⟨fs₁, h.2, .inl rfl⟩
    refine Ends.imp (Lock.ends_holding fun _ => ?_) fun _ fs' h' => ⟨fs₁, h.2, h'⟩
    exact ends_writing render module output file o

/-- an emission takes nothing away -/
theorem ends_emit_grows (render : Renderer) (module : Wasm.Module) (output : Path) (o : Options) :
    Ends (emitWith render module output o : Emitting (StateM Files) Emitted).run fs fun _ fs' =>
      fs.Grows fs' := by
  refine (ends_emit Files.Grows.refl Files.Grows.trans
    (fun _ _ _ _ => Files.makeDir_grows) render module o).imp fun _ fs' h => ?_
  obtain ⟨fs₁, h1, rfl | h2⟩ := h
  · exact h1
  · exact h1.trans h2.grows

/-- an emission whose marker cannot be new does nothing -/
theorem ends_emit_of_stat? {e : Entry} (h : fs.stat? output.lock = some e)
    (render : Renderer) (module : Wasm.Module) (o : Options) :
    Ends (emitWith render module output o : Emitting (StateM Files) Emitted).run fs fun r fs' =>
      r = .error (if output.fileName?.isSome then .collision output.lock
        else .invalidOutput output) ∧ fs' = fs := by
  obtain ⟨place, hspot, hget⟩ := spot?_of_stat?_lock h
  obtain ⟨dir, name, hfind, -, -⟩ := Files.spot?_eq_some.mp hspot
  unfold emitWith
  cases output.fileName? with
  | none => exact fun _ => ⟨rfl, rfl⟩
  | some file =>
    refine Ends.bind_run (ends_makeParent_of_find hfind) (fun _ fs' h => ?_)
      fun _ _ h => absurd h.1 (by simp)
    obtain ⟨-, rfl⟩ := h
    exact Lock.ends_holding_collision hspot hget

/-! ### new directories -/

/-- Nothing is new where a place has at least so many names. -/
def SameBelow (n : Nat) (fs fs' : Files) : Prop :=
  ∀ place : Place, n ≤ place.names.length → fs'.get? place = fs.get? place

/-- the number of names of a path that are not dots -/
def depth (p : Path) : Nat := (p.names.filter (· ≠ ".")).length

theorem length_names_of_find {p : Path} {dir : Place} {name : String} {slash : Bool}
    (hp : ".." ∉ p.names) (h : fs.find p = .ok (.named dir name slash)) :
    (dir.child name).names.length = depth p := by
  obtain ⟨mid, hmid, rfl⟩ := (Files.find_ok.mp h).2.spelled hp
  rw [depth, hmid, Place.names_child, Files.names_startOf, List.nil_append]

theorem depth_lt_of_above {q : Path} (h : q.Above output) : depth q < depth output.lock := by
  obtain ⟨rest, hrest, hnames⟩ := (above_lock h).names
  obtain ⟨init, last, hlock, hdot, -, -⟩ := names_lock output
  -- the last name of the marker's path is not one of those of `q`
  have hmem : last ++ ".lock" ∈ rest.filter (· ≠ ".") := by
    refine List.mem_filter.mpr ⟨?_, by simpa using hdot⟩
    obtain ⟨rest, s, rfl⟩ := (List.eq_nil_or_concat rest).resolve_left hrest
    rw [hlock, List.concat_eq_append, ← List.append_assoc] at hnames
    obtain ⟨-, hs⟩ := List.append_inj' hnames rfl
    rw [List.concat_eq_append, ← hs]
    exact List.mem_append_right _ List.mem_cons_self
  have hpos := List.length_pos_of_mem hmem
  rw [depth, depth, hnames, List.filter_append, List.length_append]
  omega

/-- what stands in a directory does not change when directories above it are made -/
theorem stat?_of_sameBelow {p : Path} {init : List String} {x : String} (hc : fs.Closed)
    (hnames : p.names = init ++ [x]) (hdot : x ≠ ".") (hdots : ".." ∉ p.names)
    (hslash : p.endsInSlash = false) (hkeeps : fs.Keeps fs')
    (hsame : SameBelow (depth p) fs fs') : fs'.stat? p = fs.stat? p := by
  have hx : x ≠ ".." := by
    rintro rfl
    exact hdots (by simp [hnames])
  refine Option.ext fun e => ⟨fun he => ?_, fun he => ?_⟩
  · obtain ⟨place, hspot, hget⟩ := Files.spot?_of_stat? hnames hdot hx hslash he
    obtain ⟨dir, name, hfind, hlong, rfl⟩ := Files.spot?_eq_some.mp hspot
    have hold : fs.get? (dir.child name) = some e := by
      rw [← hsame _ (Nat.le_of_eq (length_names_of_find hdots hfind).symm), hget]
    obtain ⟨hspeak, hleads⟩ := Files.find_ok.mp hfind
    have hleads := hleads.of_closed hc hdots (by simp [hold])
    have hspot :=
      Files.spot?_eq_some.mpr ⟨dir, name, Files.find_ok.mpr ⟨hspeak, hleads⟩, hlong, rfl⟩
    rw [Files.stat?_of_spot? hspot, hold]
  · obtain ⟨place, hspot, hget⟩ := Files.spot?_of_stat? hnames hdot hx hslash he
    obtain ⟨dir, name, hfind, -, rfl⟩ := Files.spot?_eq_some.mp hspot
    rw [Files.stat?_of_spot? (Files.spot?_mono hkeeps.dir hspot), ← hget]
    exact hsame _ (Nat.le_of_eq (length_names_of_find hdots hfind).symm)

theorem sameBelow_makeDir {q : Path} (hdots : ".." ∉ output.segments) (hq : q.Above output)
    (h : fs.makeDir q = .ok fs') : SameBelow (depth output.lock) fs fs' := by
  have hnames := dots_not_mem_names_lock hdots
  obtain ⟨dir, name, slash, hfind, -, rfl⟩ := Files.makeDir_ok h
  obtain ⟨rest, -, hrest⟩ := (above_lock hq).names
  rw [hrest, List.mem_append, not_or] at hnames
  have hlength := length_names_of_find hnames.1 hfind
  intro place hplace
  refine fs.get?_insert_of_ne .dir ?_
  rintro rfl
  have := depth_lt_of_above hq
  omega

/-- Nothing is lost, and nothing has changed as deep down as the files of an output are. -/
structure MakesWay (output : Path) (fs fs' : Files) : Prop where
  grows : fs.Grows fs'
  same : SameBelow (depth output.lock) fs fs'

theorem makesWay_refl (output : Path) (fs : Files) : MakesWay output fs fs :=
  ⟨.refl fs, fun _ _ => rfl⟩

theorem MakesWay.trans {fs₁ fs₂ fs₃ : Files} (h1 : MakesWay output fs₁ fs₂)
    (h2 : MakesWay output fs₂ fs₃) : MakesWay output fs₁ fs₃ :=
  ⟨h1.grows.trans h2.grows, fun place hp => (h2.same place hp).trans (h1.same place hp)⟩

theorem ends_emit_of_none (hc : fs.Closed) (hdots : ".." ∉ output.segments)
    (h : fs.stat? output.lock = none) (render : Renderer) (module : Wasm.Module) (o : Options) :
    Ends (emitWith render module output o : Emitting (StateM Files) Emitted).run fs fun _ fs' =>
      fs'.stat? output.lock = none := by
  have hstep (q : Path) (hq : q.Above output) (fs fs' : Files) (h : fs.makeDir q = .ok fs') :
      MakesWay output fs fs' := ⟨Files.makeDir_grows h, sameBelow_makeDir hdots hq h⟩
  refine (ends_emit (makesWay_refl output) MakesWay.trans hstep render module o).imp
    fun _ fs' h' => ?_
  obtain ⟨fs₁, hway, rfl | hreleased⟩ := h'
  · obtain ⟨init, last, hnames, hdot, -, -⟩ := names_lock output
    rw [stat?_of_sameBelow hc hnames hdot (dots_not_mem_names_lock hdots) (endsInSlash_lock output)
      hway.grows.keeps hway.same, h]
  · exact hreleased.stat?

/-- **An emission touches no marker but its own.**  If there is a file or a directory under the path
of the marker, the emission fails and nothing has changed; it says that the outputs collide unless
the output names no file.  If there is nothing, there is nothing when the emission has ended,
however it has ended. -/
theorem emit_lock (fs : Files) (hc : fs.Closed) (module : Wasm.Module) (output : Path)
    (hdots : ".." ∉ output.segments) (o : Options) (log : List LogRecord) :
    ∃ r log' fs', (emit module output o : Emitting (StateM Files) Emitted).run log fs
        = ((r, log'), fs') ∧ fs'.Closed ∧
      (∀ e, fs.stat? output.lock = some e → fs' = fs ∧
        r = .error (if output.fileName?.isSome then .collision output.lock
          else .invalidOutput output)) ∧
      (fs.stat? output.lock = none → fs'.stat? output.lock = none) := by
  refine ⟨_, _, _, rfl, ?_, fun e he => ?_, fun h => ?_⟩
  · exact (ends_emit_grows listing module output o log).closed hc
  · exact (ends_emit_of_stat? he listing module o log).symm
  · exact ends_emit_of_none hc hdots h listing module o log

/-- files with nothing but a marker -/
def marked : Files := Files.empty.insert (Place.here.child "a.wasm.lock") (.file [])

theorem emit_lock_marked : marked.Closed ∧ marked.stat? ⟨"a.wasm.lock"⟩ = some (.file []) ∧
    ∃ log, (emit ⟨none, [], [], []⟩ ⟨"a.wasm"⟩ { } : Emitting (StateM Files) Emitted).run [] marked
      = ((.error (.collision ⟨"a.wasm.lock"⟩), log), marked) := by
  have hc : marked.Closed :=
    Files.closed_empty.insert (Files.get?_of_names_eq_nil rfl) (by decide)
  have he : marked.stat? ⟨"a.wasm.lock"⟩ = some (.file []) := by decide +kernel
  obtain ⟨r, log, fs', h, -, hthere, -⟩ :=
    emit_lock marked hc ⟨none, [], [], []⟩ ⟨"a.wasm"⟩ (by decide +kernel) { } []
  obtain ⟨rfl, rfl⟩ := hthere _ he
  exact ⟨hc, he, log, h⟩

end Emission

end AnfWasm
