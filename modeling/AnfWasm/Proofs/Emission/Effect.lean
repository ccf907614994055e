import AnfWasm.Proofs.Emission.Lock
import AnfWasm.Proofs.Lowering.Listing

/-!
# What an emission leaves behind

An emission makes the directories on the way to its output, takes the marker, writes one file after
the other until a write fails, and removes the marker again (`emit_outcome`).  The files that it
writes and the marker have different suffixes, so they are different files whatever the path of the
output is, and each keeps its content to the end.
-/

namespace AnfWasm

/-! ### paths of different files -/

/-- Never do both paths lead to one file. -/
def Path.Disjoint (p q : Path) : Prop :=
  ∀ ⦃fs : Files⦄ ⦃a b : Place⦄, fs.spot? p = some a → fs.spot? q = some b → a ≠ b

theorem Path.disjoint_withSuffix (p : Path) {s t : String} (hst : s ≠ t) (hs : '/' ∉ s.toList)
    (ht : '/' ∉ t.toList) : (p.withSuffix s).Disjoint (p.withSuffix t) :=
  fun _ _ _ => Files.ne_of_spot?_withSuffix hst hs ht

/-- the file that could not be written, as the error names it -/
def EmitError.unwritten? : EmitError → Option Path
  | .write p _ | .render p _ => some p
  | .invalidOutput _ | .createDir _ _ | .collision _ | .lock _ _ | .overflow => none

namespace Emission

variable {fs fs' : Files} {output : Path} {o : Options}

/-! ### writing -/

/-- The files `as` have been written, and nothing else has changed. -/
structure Puts (as : List Artifact) (fs fs' : Files) : Prop where
  keeps : fs.Keeps fs'
  there : ∀ a ∈ as, ∃ content place, a.content = .ok content ∧ fs'.spot? a.path = some place ∧
    fs'.get? place = some (.file content)
  rest : ∀ place, (∀ a ∈ as, fs'.spot? a.path ≠ some place) → fs'.get? place = fs.get? place

theorem puts_nil (fs : Files) : Puts [] fs fs :=
  ⟨.refl fs, fun _ h => absurd h List.not_mem_nil, fun _ _ => rfl⟩

/-- a file that was written stays as it is while others are written -/
theorem Puts.cons {a : Artifact} {as : List Artifact} {content : Bytes} {fs₁ : Files}
    (hcontent : a.content = .ok content) (hwrite : fs.write a.path content = .ok fs₁)
    (h : Puts as fs₁ fs') (hd : ∀ b ∈ as, a.path.Disjoint b.path) : Puts (a :: as) fs fs' := by
  have hkeeps := (Files.write_grows hwrite).keeps.trans h.keeps
  obtain ⟨place, hspot, -, rfl⟩ := Files.write_ok hwrite
  have hspot' := Files.spot?_mono hkeeps.dir hspot
  have hget : fs'.get? place = some (.file content) := by
    rw [h.rest place fun b hb hb' => hd b hb hspot' hb' rfl]
    exact fs.get?_insert_self _ (Files.names_ne_nil_of_spot? hspot)
  refine ⟨hkeeps, fun b hb => ?_, fun other hother => ?_⟩
  · rcases List.mem_cons.mp hb with rfl | hb
    · exact ⟨content, place, hcontent, hspot', hget⟩
    · exact h.there b hb
  · obtain ⟨hne, hrest⟩ := List.forall_mem_cons.mp hother
    rw [h.rest other hrest, fs.get?_insert_of_ne]
    rintro rfl
    exact hne hspot'

/-- files are written up to the first one that fails -/
theorem ends_writeAll_puts {as : List Artifact}
    (hd : as.Pairwise fun a b => a.path.Disjoint b.path) :
    Ends (writeAll as : Emitting (StateM Files) Unit).run fs fun r fs' =>
      (r = .ok () ∧ Puts as fs fs') ∨ ∃ done a rest e, as = done ++ a :: rest ∧
        r = .error e ∧ a.Fails e ∧ Puts done fs fs' := by
  induction as generalizing fs with
  | nil => exact fun _ => .inl ⟨rfl, puts_nil fs⟩
  | cons a as ih =>
    obtain ⟨ha, has⟩ := List.pairwise_cons.mp hd
    refine Ends.bind_run (ends_writeArtifact a) (fun _ fs₁ h => ?_) fun e fs₁ h => ?_
    · obtain ⟨-, content, hcontent, hwrite⟩ | ⟨e, he, -⟩ := h
      case inr => exact absurd he (by simp)
      refine (ih has).imp fun r fs' h => ?_
      obtain ⟨hr, hputs⟩ | ⟨done, b, rest, e, rfl, hr, hfails, hputs⟩ := h
      · exact .inl ⟨hr, hputs.cons hcontent hwrite ha⟩
      · refine .inr ⟨a :: done, b, rest, e, rfl, hr, hfails, hputs.cons hcontent hwrite ?_⟩
        exact fun c hc => ha c (List.mem_append_left _ hc)
    · obtain ⟨he, -⟩ | ⟨e', he, hfails, rfl⟩ := h
      · exact absurd he (by simp)
      · obtain rfl := Except.error.inj he
        exact .inr ⟨[], a, as, e, rfl, rfl, hfails, puts_nil _⟩

/-- nothing remains of a marker that was new -/
theorem Puts.release {p : Path} {place : Place} {as : List Artifact} {fs₁ : Files}
    (hspot : fs.spot? p = some place) (hget : fs.get? place = none)
    (h : Puts as (fs.insert place (.file [])) fs₁) (hd : ∀ a ∈ as, p.Disjoint a.path) :
    Puts as fs (fs₁.erase place) := by
  have hgrows := Files.createNew_grows (Files.createNew_of_spot? hspot hget)
  have hkeeps := hgrows.keeps.trans h.keeps
  have hspot₁ := Files.spot?_mono hkeeps.dir hspot
  obtain ⟨content, hfile⟩ :=
    h.keeps.file (fs.get?_insert_self (.file []) (Files.names_ne_nil_of_spot? hspot))
  have hdirs := Files.dir_erase (show fs₁.get? place ≠ some .dir by simp [hfile])
  refine ⟨hkeeps.erase hget, fun a ha => ?_, fun other hother => ?_⟩
  · obtain ⟨content, place', hcontent, hplace, hget'⟩ := h.there a ha
    refine ⟨content, place', hcontent, Files.spot?_mono hdirs hplace, ?_⟩
    rw [fs₁.get?_erase_of_ne (hd a ha hspot₁ hplace).symm, hget']
  · by_cases hne : other = place
    · subst hne
      rw [fs₁.get?_erase_self (Files.names_ne_nil_of_spot? hspot), hget]
    · rw [fs₁.get?_erase_of_ne hne, h.rest other, fs.get?_insert_of_ne _ hne]
      exact fun a ha ha' => hother a ha (Files.spot?_mono hdirs ha')

/-! ### the files of a module -/

/-- the files that an emission may touch, the marker first -/
def family (output : Path) : List Path :=
  [output.lock, output.sourceMap, output, output.listing, output.signature]

/-- The files that are written, in order. -/
def sequence (output : Path) (o : Options) : List Path :=
  (if o.sourceMap then [output.sourceMap] else []) ++ [output] ++
    if o.debug then [output.listing, output.signature] else []

/-- What the files of a module hold.  The module that is written names its source map if there is
one. -/
inductive Content (render : Renderer) (m : Wasm.Module) (output : Path) (file : String)
    (o : Options) : Path → Bytes → Prop where
  | sourceMap : Content render m output file o output.sourceMap
      (utf8 (sourceMapOf m (m.encode (urlOf file o)).functions file).1.toText)
  | primary : Content render m output file o output (m.encode (urlOf file o)).bytes
  | listing {s : String} : render m (urlOf file o) = .ok s →
      Content render m output file o output.listing (utf8 s)
  | signature {s : String} : m.signature.toToml? = some s →
      Content render m output file o output.signature (utf8 s)

section
variable {render : Renderer} {m : Wasm.Module} {file : String}

theorem map_path_artifacts (render : Renderer) (m : Wasm.Module) (output : Path) (file : String)
    (o : Options) :
    (artifacts render m output file o).map Artifact.path = sequence output o := by
  obtain ⟨debug, sourceMap⟩ := o
  cases debug <;> cases sourceMap <;> rfl

/-- An artifact has its content, or an error that says which file it is of. -/
structure Faithful (render : Renderer) (m : Wasm.Module) (output : Path) (file : String)
    (o : Options) (a : Artifact) : Prop where
  content : ∀ content, a.content = .ok content → Content render m output file o a.path content
  error : ∀ e, a.content = .error e → (∃ causes, e = .render a.path causes) ∨
    (e = .overflow ∧ a.path = output.signature ∧ m.signature.toToml? = none)

theorem faithful_of_ok {a : Artifact} {content : Bytes} (h : a.content = .ok content)
    (hc : Content render m output file o a.path content) : Faithful render m output file o a where
  content _ h' := Except.ok.inj (h.symm.trans h') ▸ hc
  error _ h' := absurd (h.symm.trans h') (by simp)

theorem faithful_of_mem {a : Artifact} (h : a ∈ artifacts render m output file o) :
    Faithful render m output file o a := by
  rcases List.mem_append.mp h with h | h
  · rcases List.mem_append.mp h with h | h
    · split at h
      · obtain rfl := List.mem_singleton.mp h
        exact faithful_of_ok rfl .sourceMap
      · exact absurd h List.not_mem_nil
    · obtain rfl := List.mem_singleton.mp h
      exact faithful_of_ok rfl .primary
  · split at h
    · rcases List.mem_cons.mp h with rfl | h
      · cases ht : render m (urlOf file o) with
        | error causes =>
          refine ⟨fun c hc => absurd hc (by simp), fun e he => .inl ⟨causes, ?_⟩⟩
          exact (Except.error.inj he).symm
        | ok s => exact faithful_of_ok rfl (.listing ht)
      · obtain rfl := List.mem_singleton.mp h
        cases ht : m.signature.toToml? with
        | none =>
          refine ⟨fun c hc => absurd hc (by simp), fun e he => .inr ⟨?_, rfl, ht⟩⟩
          exact (Except.error.inj he).symm
        | some s => exact faithful_of_ok rfl (.signature ht)
    · exact absurd h List.not_mem_nil

/-- the suffixes of the files that an emission may touch -/
def suffixes : List String := [".lock", ".map", "", ".wast", ".modsig"]

theorem family_eq (output : Path) : family output = suffixes.map output.withSuffix := by
  simp only [suffixes, List.map_cons, output.withSuffix_empty]
  rfl

theorem slash_not_mem_suffixes : ∀ s ∈ suffixes, '/' ∉ s.toList := by decide +kernel

theorem disjoint_of_mem_family {p q : Path} (hp : p ∈ family output) (hq : q ∈ family output)
    (hne : p ≠ q) : p.Disjoint q := by
  rw [family_eq] at hp hq
  obtain ⟨s, hs, rfl⟩ := List.mem_map.mp hp
  obtain ⟨t, ht, rfl⟩ := List.mem_map.mp hq
  exact output.disjoint_withSuffix (fun h => hne (by rw [h])) (slash_not_mem_suffixes s hs)
    (slash_not_mem_suffixes t ht)

theorem nodup_family (output : Path) : (family output).Nodup := by
  have hnodup : suffixes.Nodup := by decide +kernel
  rw [family_eq]
  refine List.Pairwise.map output.withSuffix (fun s t hne h => hne ?_) hnodup
  exact (String.append_right_inj output.text).mp (Path.mk.inj h)

theorem sequence_sublist (output : Path) (o : Options) :
    (sequence output o).Sublist (family output).tail := by
  obtain ⟨debug, sourceMap⟩ := o
  cases debug <;> cases sourceMap <;> simp [sequence, family]

theorem pairwise_artifacts (render : Renderer) (m : Wasm.Module) (output : Path) (file : String)
    (o : Options) :
    (artifacts render m output file o).Pairwise fun a b => a.path.Disjoint b.path := by
  have hsub := (sequence_sublist output o).trans (List.tail_sublist _)
  rw [← List.pairwise_map (R := Path.Disjoint), map_path_artifacts]
  exact ((nodup_family output).sublist hsub).imp_of_mem fun hp hq hne =>
    disjoint_of_mem_family (hsub.subset hp) (hsub.subset hq) hne

theorem path_mem_family {a : Artifact} (h : a ∈ artifacts render m output file o) :
    a.path ∈ (family output).tail :=
  (sequence_sublist output o).subset
    (map_path_artifacts render m output file o ▸ List.mem_map_of_mem h)

theorem lock_disjoint {a : Artifact} (h : a ∈ artifacts render m output file o) :
    output.lock.Disjoint a.path := by
  have hpath := path_mem_family h
  refine disjoint_of_mem_family List.mem_cons_self (List.mem_cons_of_mem _ hpath) ?_
  exact fun heq => (List.nodup_cons.mp (nodup_family output)).1 (heq ▸ hpath)

end

/-! ### an emission -/

/-- the first part of an emission -/
def taking (output : Path) : Emitting (StateM Files) Unit := do
  makeParent output
  Lock.acquire output.lock

/-- the part of an emission under its marker -/
def underMarker (render : Renderer) (m : Wasm.Module) (output : Path) (file : String)
    (o : Options) : Emitting (StateM Files) Emitted :=
  ExceptT.mk do
    let result ← (do writeAll (artifacts render m output file o); return emittedOf output o :
      Emitting (StateM Files) Emitted).run
    Lock.release output.lock
    return result

theorem emitWith_eq {render : Renderer} {m : Wasm.Module} {file : String}
    (h : output.fileName? = some file) :
    emitWith render m output o = (do taking output; underMarker render m output file o) := by
  unfold emitWith
  rw [h]
  simp only [taking, bind_assoc]
  rfl

/-- the marker that is in the way is that of the output -/
def Collides (output p : Path) (fs : Files) : Prop :=
  p = output.lock ∧ (fs.stat? output.lock).isSome

theorem ends_taking {R : Files → Files → Prop} (hrefl : ∀ fs, R fs fs)
    (htrans : ∀ {fs₁ fs₂ fs₃}, R fs₁ fs₂ → R fs₂ fs₃ → R fs₁ fs₃)
    (hstep : ∀ parent, output.parent? = some parent → ∀ q ∈ parent.ancestors,
      ∀ fs fs' : Files, fs.makeDir q = .ok fs' → R fs fs') :
    Ends (taking output).run fs fun r fs' =>
      (∃ e, r = .error e ∧ R fs fs' ∧ ∀ p, e = .collision p → Collides output p fs') ∨
        ∃ fs₁ place, r = .ok () ∧ R fs fs₁ ∧ fs₁.spot? output.lock = some place ∧
          fs₁.get? place = none ∧ fs' = fs₁.insert place (.file []) := by
  refine Ends.bind_run (ends_makeParent hrefl htrans hstep) (fun _ fs₁ h => ?_)
    fun e fs₁ h => .inl ⟨e, rfl, h.2, fun p he => absurd (congrArg _ he) (h.1 p)⟩
  refine Lock.ends_acquire.imp fun r fs' h' => ?_
  obtain ⟨rfl, hnew⟩ | ⟨e, herror, rfl, rfl⟩ := h'
  · obtain ⟨place, hspot, hget, rfl⟩ := Files.createNew_ok hnew
    exact .inr ⟨fs₁, place, rfl, h.2, hspot, hget, rfl⟩
  · refine .inl ⟨_, rfl, h.2, fun p hp => ?_⟩
    split at hp
    · rename_i he
      obtain rfl := EmitError.collision.inj hp
      exact ⟨rfl, Files.stat?_of_createNew (he ▸ herror)⟩
    · exact absurd hp (by simp)

/-- What the part under the marker has written, as far as it came. -/
def Written (render : Renderer) (m : Wasm.Module) (output : Path) (file : String) (o : Options)
    (r : Except EmitError Emitted) (fs fs' : Files) : Prop :=
  (r = .ok (emittedOf output o) ∧ Puts (artifacts render m output file o) fs fs') ∨
    ∃ done a rest e, artifacts render m output file o = done ++ a :: rest ∧ r = .error e ∧
      a.Fails e ∧ Puts done fs fs'

theorem Written.puts {render : Renderer} {m : Wasm.Module} {file : String}
    {r : Except EmitError Emitted}
    (h : Written render m output file o r fs fs') :
    ∃ as, (∀ a ∈ as, a ∈ artifacts render m output file o) ∧ Puts as fs fs' ∧
      ∀ {fs₁ fs₁' : Files}, Puts as fs₁ fs₁' → Written render m output file o r fs₁ fs₁' := by
  obtain ⟨rfl, hputs⟩ | ⟨done, a, rest, e, heq, rfl, hfails, hputs⟩ := h
  · exact ⟨_, fun _ ha => ha, hputs, fun h => .inl ⟨rfl, h⟩⟩
  · refine ⟨done, fun b hb => ?_, hputs, fun h => .inr ⟨done, a, rest, e, heq, rfl, hfails, h⟩⟩
    rw [heq]
    exact List.mem_append_left _ hb

theorem ends_writing_written (render : Renderer) (m : Wasm.Module) (output : Path) (file : String)
    (o : Options) :
    Ends (do writeAll (artifacts render m output file o); return emittedOf output o :
      Emitting (StateM Files) Emitted).run fs fun r fs' =>
        Written render m output file o r fs fs' := by
  refine Ends.bind_run (ends_writeAll_puts (pairwise_artifacts render m output file o))
    (fun _ fs' h _ => ?_) fun e fs' h => ?_
  · obtain ⟨-, hputs⟩ | ⟨_, _, _, _, -, hr, -⟩ := h
    · exact .inl ⟨rfl, hputs⟩
    · exact absurd hr (by simp)
  · obtain ⟨hr, -⟩ | ⟨done, a, rest, e', heq, hr, hfails, hputs⟩ := h
    · exact absurd hr (by simp)
    · obtain rfl := Except.error.inj hr
      exact .inr ⟨done, a, rest, e, heq, rfl, hfails, hputs⟩

theorem ends_underMarker {place : Place} (hspot : fs.spot? output.lock = some place)
    (hget : fs.get? place = none) (render : Renderer) (m : Wasm.Module) (file : String)
    (o : Options) :
    Ends (underMarker render m output file o).run (fs.insert place (.file [])) fun r fs' =>
      Written render m output file o r fs fs' := by
  have hgrows := Files.createNew_grows (Files.createNew_of_spot? hspot hget)
  have hmarker := fs.get?_insert_self (.file []) (Files.names_ne_nil_of_spot? hspot)
  refine Ends.bind (ends_writing_written render m output file o) fun r fs₁ h => ?_
  obtain ⟨as, hsub, hputs, hwritten⟩ := h.puts
  obtain ⟨content, hfile⟩ := hputs.keeps.file hmarker
  have hspot₁ := Files.spot?_mono (hgrows.keeps.trans hputs.keeps).dir hspot
  refine (Lock.ends_release_of_spot? hspot₁ hfile).bind fun _ fs' h' _ => ?_
  exact hwritten (h' ▸ hputs.release hspot hget fun a ha => lock_disjoint (hsub a ha))

/-- The run of an emission gets as far as to its marker. -/
def TakesLock (output : Path) (log : List LogRecord) (fs : Files) : Prop :=
  output.fileName?.isSome ∧ ((taking output).run log fs).1.1 = .ok ()

/-- the first part of an emission makes directories, and the rest is done under the marker -/
theorem emit_outcome {R : Files → Files → Prop} (hrefl : ∀ fs, R fs fs)
    (htrans : ∀ {fs₁ fs₂ fs₃}, R fs₁ fs₂ → R fs₂ fs₃ → R fs₁ fs₃)
    (hstep : ∀ file, output.fileName? = some file → ∀ parent, output.parent? = some parent →
      ∀ q ∈ parent.ancestors, ∀ fs fs' : Files, fs.makeDir q = .ok fs' → R fs fs')
    (render : Renderer) (m : Wasm.Module) (o : Options) (log : List LogRecord)
    {r : Except EmitError Emitted} {log' : List LogRecord}
    (h : (emitWith render m output o : Emitting (StateM Files) Emitted).run log fs
      = ((r, log'), fs')) :
    (¬TakesLock output log fs ∧ ∃ e, r = .error e ∧ R fs fs' ∧
        ∀ p, e = .collision p → Collides output p fs') ∨
      (TakesLock output log fs ∧ ∃ file fs₁, output.fileName? = some file ∧ R fs fs₁ ∧
        Written render m output file o r fs₁ fs') := by
  cases hfile : output.fileName? with
  | none =>
    unfold emitWith at h
    rw [hfile] at h
    cases show ((Except.error (.invalidOutput output), log), fs) = ((r, log'), fs') from h
    refine .inl ⟨fun ht => by simp [TakesLock, hfile] at ht, _, rfl, hrefl fs, fun p hp => ?_⟩
    exact absurd hp (by simp)
  | some file =>
    rw [emitWith_eq hfile] at h
    have htaking := (ends_taking hrefl htrans (hstep file hfile) : Ends _ fs _) log
    generalize hrun : (taking output).run log fs = run at htaking
    obtain ⟨⟨r₁, log₁⟩, fs₁⟩ := run
    obtain ⟨e, rfl, hR, hcollides⟩ | ⟨fs₂, place, rfl, hR, hspot, hget, rfl⟩ := htaking
    · rw [run_bind_of_error hrun] at h
      cases h
      exact .inl ⟨fun ht => absurd (hrun ▸ ht.2) (by simp), e, rfl, hR, hcollides⟩
    · rw [run_bind_of_ok hrun] at h
      have hwritten := ends_underMarker hspot hget render m file o log₁
      rw [h] at hwritten
      exact .inr ⟨⟨by simp [hfile], by rw [hrun]⟩, file, fs₂, rfl, hR, hwritten⟩

/-! ### new directories -/

/-- the place of a directory on the way to a path without `..` -/
def OnWay (p : Path) (place : Place) : Prop :=
  place.base = (Files.startOf p).base ∧
    ∃ rest, rest ≠ [] ∧ p.names.filter (· ≠ ".") = place.names ++ rest

/-- Nothing has changed, but directories on the way to a path are there that were not. -/
def AddsDirs (p : Path) (fs fs' : Files) : Prop :=
  ∀ place, fs'.get? place = fs.get? place ∨
    (OnWay p place ∧ fs.get? place = none ∧ fs'.get? place = some .dir)

theorem addsDirs_refl (p : Path) (fs : Files) : AddsDirs p fs fs := fun _ => .inl rfl

theorem AddsDirs.trans {p : Path} {fs₁ fs₂ fs₃ : Files} (h1 : AddsDirs p fs₁ fs₂)
    (h2 : AddsDirs p fs₂ fs₃) : AddsDirs p fs₁ fs₃ := by
  intro place
  rcases h2 place with h2 | ⟨hway, hnone, hdir⟩
  · rw [h2]
    exact h1 place
  · rcases h1 place with h1 | ⟨-, -, hdir'⟩
    · exact .inr ⟨hway, h1.symm.trans hnone, hdir⟩
    · exact absurd (hnone.symm.trans hdir') (by simp)

theorem addsDirs_makeDir {file : String} {parent q : Path} (hdots : ".." ∉ output.segments)
    (hfile : output.fileName? = some file) (hparent : output.parent? = some parent)
    (hq : q ∈ parent.ancestors) (h : fs.makeDir q = .ok fs') : AddsDirs output fs fs' := by
  have habove := above_of_mem_ancestors_parent? hparent hq
  obtain ⟨rest, hrest, hnames⟩ := names_of_mem_ancestors_parent? hfile hparent hq
  obtain ⟨dir, name, slash, hfind, hget, rfl⟩ := Files.makeDir_ok h
  have hdots' : ".." ∉ q.names := fun hmem => hdots
    (Path.mem_names.mp (hnames ▸ List.mem_append_left rest hmem)).1
  obtain ⟨mid, hmid, rfl⟩ := (Files.find_ok.mp hfind).2.spelled hdots'
  intro place
  by_cases hplace :
      place = Place.child ⟨(Files.startOf q).base, (Files.startOf q).names ++ mid⟩ name
  · subst hplace
    refine .inr ⟨⟨?_, rest.filter (· ≠ "."), ?_, ?_⟩, hget, fs.get?_insert_self _ (by simp)⟩
    · rw [Files.startOf, Files.startOf, habove.rooted]
      rfl
    · have hne := (Path.fileName?_eq_some hfile).2.1
      exact List.ne_nil_of_mem (List.mem_filter.mpr ⟨hrest, by simpa using hne⟩)
    · rw [hnames, List.filter_append, hmid, Place.names_child, Files.names_startOf, List.nil_append]
  · exact .inl (fs.get?_insert_of_ne _ hplace)

/-- an emission makes no directory where one of its files would be -/
theorem not_onWay_of_spot? {p : Path} {place : Place} (hdots : ".." ∉ output.segments)
    (hp : p ∈ family output) (h : fs.spot? p = some place) : ¬OnWay output place := by
  rw [family_eq] at hp
  obtain ⟨s, hs, rfl⟩ := List.mem_map.mp hp
  obtain ⟨init, last, houtput, hsuffix⟩ := Files.names_withSuffix_of_spot? output
  have hnames := hsuffix (slash_not_mem_suffixes s hs) h
  obtain ⟨dir, name, hfind, -, rfl⟩ := Files.spot?_eq_some.mp h
  obtain ⟨hdot, hdots', -, -⟩ := (hnames ▸ (Files.find_ok.mp hfind).2).ends_in
  have hlength := length_names_of_find (p := output.withSuffix s) (by
    rw [hnames, List.mem_append, List.mem_singleton, not_or]
    refine ⟨fun hmem => hdots (Path.mem_names.mp ?_).1, hdots'.symm⟩
    rw [houtput]
    exact List.mem_append_left _ hmem) hfind
  rintro ⟨-, rest, hrest, hway⟩
  have hpos := List.length_pos_iff.mpr hrest
  have hlast := (([last].filter (!·.isEmpty)).length_filter_le (· ≠ ".")).trans
    (List.length_filter_le _ _)
  have hsum := congrArg List.length hway
  rw [depth, hnames, List.filter_append, List.length_append,
    List.filter_cons_of_pos (by simpa using hdot)] at hlength
  rw [houtput, List.filter_append, List.length_append, List.length_append] at hsum
  simp only [List.length_singleton, List.filter_nil] at hlength hlast
  omega

/-! ### the whole effect -/

/-- The files `done` have their contents, and all else is as it was but for directories on the way
to the output. -/
structure Effect (render : Renderer) (m : Wasm.Module) (output : Path) (file : String) (o : Options)
    (done : List Path) (fs fs' : Files) : Prop where
  there : ∀ p ∈ done, ∃ content, Content render m output file o p content ∧
    fs'.stat? p = some (.file content)
  rest : ∀ place, (∀ p ∈ done, fs'.spot? p ≠ some place) → fs'.get? place = fs.get? place ∨
    (OnWay output place ∧ fs.get? place = none ∧ fs'.get? place = some .dir)
  /-- so are the marker and the files of the output that have not been written -/
  others : ∀ p ∈ family output, p ∉ done → ∀ place, fs'.spot? p = some place →
    fs'.get? place = fs.get? place

theorem Puts.effect {render : Renderer} {m : Wasm.Module} {file : String} {as : List Artifact}
    {fs₁ : Files} (h : Puts as fs₁ fs') (hsub : ∀ a ∈ as, a ∈ artifacts render m output file o)
    (hdots : ".." ∉ output.segments) (hdirs : AddsDirs output fs fs₁) :
    Effect render m output file o (as.map Artifact.path) fs fs' := by
  refine ⟨fun p hp => ?_, fun place hplace => ?_, fun p hp hnot place hspot => ?_⟩
  · obtain ⟨a, ha, rfl⟩ := List.mem_map.mp hp
    obtain ⟨content, place, hcontent, hspot, hget⟩ := h.there a ha
    refine ⟨content, (faithful_of_mem (hsub a ha)).content content hcontent, ?_⟩
    rw [Files.stat?_of_spot? hspot, hget]
  · rw [h.rest place fun a ha => hplace a.path (List.mem_map_of_mem ha)]
    exact hdirs place
  · rw [h.rest place fun a ha hspot' => ?_]
    · exact (hdirs place).resolve_right fun hnew => not_onWay_of_spot? hdots hp hspot hnew.1
    · refine disjoint_of_mem_family hp (List.mem_of_mem_tail (path_mem_family (hsub a ha))) ?_
        hspot hspot' rfl
      exact fun heq => hnot (heq ▸ List.mem_map_of_mem ha)

theorem files_emittedOf (output : Path) (o : Options) : (emittedOf output o).files =
    [output] ++ (if o.sourceMap then [output.sourceMap] else []) ++
      if o.debug then [output.listing, output.signature] else [] := by
  obtain ⟨debug, sourceMap⟩ := o
  cases debug <;> cases sourceMap <;> rfl

/-- an artifact that is not written is the one that the error names -/
theorem Artifact.Fails.unwritten {render : Renderer} {m : Wasm.Module} {file : String}
    {a : Artifact} {e : EmitError} (h : a.Fails e) (ha : Faithful render m output file o a) :
    e.unwritten? = some a.path ∨
      e = .overflow ∧ a.path = output.signature ∧ m.signature.toToml? = none := by
  rcases h with h | ⟨err, rfl⟩
  · rcases ha.error e h with ⟨cause, rfl⟩ | h
    · exact .inl rfl
    · exact .inr h
  · exact .inl rfl

/-- every compiled module that has these bytes is listed as `s` -/
def ListedAs (bs : Bytes) (s : String) : Prop :=
  ∀ (p : Program) (m : Wasm.Module) (url : Option String), p.lower.1 = .ok m →
    (m.encode url).bytes = bs → listing m url = .ok s

theorem listedAs_listing {p : Program} {m : Wasm.Module} {url : Option String} {s : String}
    (hm : p.lower.1 = .ok m) (hsize : (m.encode url).bytes.length < 2 ^ 32)
    (hs : listing m url = .ok s) : ListedAs (m.encode url).bytes s := by
  intro p' m' url' hm' hbytes
  rw [← hs, listing, listing, Lowering.toText_of_bytes hm hm' hsize hbytes.symm]

/-- **The effect of an emission.**  If it succeeds, the files that were asked for hold what they
should.  If it fails under its marker, those before the file that the error names do, and if it
fails before that, none does.  Nothing else has changed, but directories on the way to the output
may be new.  All that holds for any renderer.  What `listing` shows of a compiled module is
determined by the bytes of the output. -/
theorem emit_effect (render : Renderer) (fs : Files) (m : Wasm.Module) (output : Path)
    (hdots : ".." ∉ output.segments) (o : Options) (log : List LogRecord) :
    ∃ r log' fs', (emitWith render m output o : Emitting (StateM Files) Emitted).run log fs
        = ((r, log'), fs') ∧
      (∀ emitted, r = .ok emitted → ∃ file, output.fileName? = some file ∧
        Effect render m output file o (sequence output o) fs fs' ∧
        emitted.files = [output] ++ (if o.sourceMap then [output.sourceMap] else []) ++
          if o.debug then [output.listing, output.signature] else []) ∧
      (∀ e, r = .error e → TakesLock output log fs → ∃ file done next rest,
        output.fileName? = some file ∧ sequence output o = done ++ next :: rest ∧
        Effect render m output file o done fs fs' ∧ (e.unwritten? = some next ∨
          e = .overflow ∧ next = output.signature ∧ m.signature.toToml? = none)) ∧
      (∀ e, r = .error e → ¬TakesLock output log fs → AddsDirs output fs fs') ∧
      ∀ file p s, output.fileName? = some file → (Program.lower p).1 = .ok m →
        (m.encode (urlOf file o)).bytes.length < 2 ^ 32 → listing m (urlOf file o) = .ok s →
          ListedAs (m.encode (urlOf file o)).bytes s := by
  obtain ⟨⟨⟨r, log'⟩, fs'⟩, hrun⟩ : ∃ x,
    (emitWith render m output o : Emitting (StateM Files) Emitted).run log fs = x := ⟨_, rfl⟩
  refine ⟨r, log', fs', hrun, ?_⟩
  have hout := emit_outcome (R := AddsDirs output) (addsDirs_refl output) AddsDirs.trans
    (fun file hfile parent hp q hq fs fs' => addsDirs_makeDir hdots hfile hp hq) render m o log hrun
  obtain ⟨hnot, e, rfl, hdirs, -⟩ | ⟨htakes, file, fs₁, hfile, hdirs, hwritten⟩ := hout
  · exact ⟨fun _ h => absurd h (by simp), fun _ _ h => absurd h hnot, fun _ _ _ => hdirs,
      fun _ _ _ _ => listedAs_listing⟩
  · obtain ⟨rfl, hputs⟩ | ⟨done, a, rest, e, heq, rfl, hfails, hputs⟩ := hwritten
    · refine ⟨fun emitted h => ⟨file, hfile, ?_, ?_⟩, fun _ h => absurd h (by simp),
        fun _ h => absurd h (by simp), fun _ _ _ _ => listedAs_listing⟩
      · rw [← map_path_artifacts render m output file o]
        exact hputs.effect (fun _ ha => ha) hdots hdirs
      · rw [← Except.ok.inj h]
        exact files_emittedOf output o
    · refine ⟨fun _ h => absurd h (by simp), fun e' h _ => ?_, fun _ _ h => absurd htakes h,
        fun _ _ _ _ => listedAs_listing⟩
      obtain rfl := Except.error.inj h
      have hmem : ∀ b ∈ done ++ a :: rest, b ∈ artifacts render m output file o :=
        fun b hb => heq ▸ hb
      refine ⟨file, done.map Artifact.path, a.path, rest.map Artifact.path, hfile, ?_, ?_, ?_⟩
      · rw [← map_path_artifacts render m output file o, heq, List.map_append, List.map_cons]
      · exact hputs.effect (fun b hb => hmem b (List.mem_append_left _ hb)) hdots hdirs
      · exact hfails.unwritten (faithful_of_mem (hmem a (by simp)))

/-- files with a directory where the listing of an output would be -/
def blocked : Files := Files.empty.insert (Place.here.child "a.wasm.wast") .dir

theorem emit_effect_blocked : ".." ∉ Path.segments ⟨"./a.wasm"⟩ ∧
    TakesLock ⟨"./a.wasm"⟩ [] blocked ∧ ∃ log fs',
      (emit ⟨none, [], [], []⟩ ⟨"./a.wasm"⟩ ⟨true, true⟩ : Emitting (StateM Files) Emitted).run []
        blocked = ((.error (.write ⟨"./a.wasm.wast"⟩ .isADirectory), log), fs') ∧
      Effect listing ⟨none, [], [], []⟩ ⟨"./a.wasm"⟩ "a.wasm" ⟨true, true⟩
        [⟨"./a.wasm.map"⟩, ⟨"./a.wasm"⟩] blocked fs' := by
  have hdots : ".." ∉ Path.segments ⟨"./a.wasm"⟩ := by decide +kernel
  have htakes : TakesLock ⟨"./a.wasm"⟩ [] blocked := ⟨by decide +kernel, by decide +kernel⟩
  have herror : ((emit ⟨none, [], [], []⟩ ⟨"./a.wasm"⟩ ⟨true, true⟩ :
      Emitting (StateM Files) Emitted).run [] blocked).1.1 =
        .error (.write ⟨"./a.wasm.wast"⟩ .isADirectory) := by decide +kernel
  obtain ⟨r, log, fs', hrun, -, hfails, -⟩ :=
    emit_effect listing blocked ⟨none, [], [], []⟩ ⟨"./a.wasm"⟩ hdots ⟨true, true⟩ []
  rw [emit, hrun] at herror
  obtain rfl : r = .error (.write ⟨"./a.wasm.wast"⟩ .isADirectory) := herror
  obtain ⟨file, done, next, rest, hfile, hsequence, heffect, hnext⟩ := hfails _ rfl htakes
  obtain rfl : "a.wasm" = file := Option.some.inj (Eq.trans (by decide +kernel) hfile)
  obtain rfl : (⟨"./a.wasm.wast"⟩ : Path) = next := by
    rcases hnext with hnext | ⟨hnext, -⟩
    · exact Option.some.inj hnext
    · exact absurd hnext (by simp)
  have hlist : sequence ⟨"./a.wasm"⟩ ⟨true, true⟩ =
      [⟨"./a.wasm.map"⟩, ⟨"./a.wasm"⟩, ⟨"./a.wasm.wast"⟩, ⟨"./a.wasm.modsig"⟩] := by decide +kernel
  rw [hlist] at hsequence
  refine ⟨hdots, htakes, log, fs', hrun, ?_⟩
  rcases done with _ | ⟨x, _ | ⟨y, _ | ⟨z, done⟩⟩⟩
  · simp at hsequence
  · simp at hsequence
  · simp at hsequence
    obtain ⟨rfl, rfl, -⟩ := hsequence
    exact heffect
  · cases done <;> simp at hsequence

end Emission

end AnfWasm
