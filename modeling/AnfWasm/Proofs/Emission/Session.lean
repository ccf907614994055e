import AnfWasm.Proofs.Emission.Lock

/-!
# Markers over a whole session

In a session markers are acquired and dropped and modules are emitted, in any order.  Markers that
are held are files of their own (`Apart`): no step makes a second marker of a file, and no step
removes a marker but the one that it drops.
-/

namespace AnfWasm

namespace Lock

variable {fs fs' : Files} {p : Path} {ps qs : List Path}

/-- Each of the paths leads to a file, and no two to the same. -/
structure Apart (fs : Files) (ps : List Path) : Prop where
  there : ∀ p ∈ ps, ∃ place content, fs.spot? p = some place ∧ fs.get? place = some (.file content)
  distinct : ps.Pairwise fun p q => fs.spot? p ≠ fs.spot? q

theorem apart_nil (fs : Files) : Apart fs [] := ⟨fun _ h => absurd h List.not_mem_nil, .nil⟩

theorem Apart.perm (h : Apart fs ps) (hperm : ps.Perm qs) : Apart fs qs :=
  ⟨fun p hp => h.there p (hperm.mem_iff.mpr hp), (hperm.pairwise_iff Ne.symm).mp h.distinct⟩

/-- paths lead to the same files as long as the directories and these files are there -/
theorem Apart.transfer (h : Apart fs ps)
    (hdirs : ∀ place, fs.get? place = some .dir → fs'.get? place = some .dir)
    (hfiles : ∀ p ∈ ps, ∀ place content, fs.spot? p = some place →
      fs.get? place = some (.file content) → ∃ content', fs'.get? place = some (.file content')) :
    Apart fs' ps := by
  have hspot (p : Path) (hp : p ∈ ps) : fs'.spot? p = fs.spot? p := by
    obtain ⟨place, -, hplace, -⟩ := h.there p hp
    rw [hplace, Files.spot?_mono hdirs hplace]
  refine ⟨fun p hp => ?_, h.distinct.imp_of_mem fun {p q} hp hq hne => ?_⟩
  · obtain ⟨place, content, hplace, hfile⟩ := h.there p hp
    obtain ⟨content', hfile'⟩ := hfiles p hp place content hplace hfile
    exact ⟨place, content', (hspot p hp).trans hplace, hfile'⟩
  · rw [hspot p hp, hspot q hq]
    exact hne

theorem Apart.keeps (h : Apart fs ps) (hkeeps : fs.Keeps fs') : Apart fs' ps :=
  h.transfer hkeeps.dir fun _ _ _ _ _ hfile => hkeeps.file hfile

/-- a new file is none of those that are there -/
theorem Apart.createNew (h : Apart fs ps) (hnew : fs.createNew p = .ok fs') :
    Apart fs' (p :: ps) := by
  have hgrows := Files.createNew_grows hnew
  obtain ⟨place, hspot, hget, rfl⟩ := Files.createNew_ok hnew
  have hspot' := Files.spot?_mono hgrows.keeps.dir hspot
  have hps := h.keeps hgrows.keeps
  refine ⟨List.forall_mem_cons.mpr ⟨⟨place, [], hspot', ?_⟩, hps.there⟩,
    .cons (fun q hq heq => ?_) hps.distinct⟩
  · exact fs.get?_insert_self _ (Files.names_ne_nil_of_spot? hspot)
  · obtain ⟨place', content, hplace', hfile⟩ := h.there q hq
    rw [hspot', Files.spot?_mono hgrows.keeps.dir hplace'] at heq
    obtain rfl := Option.some.inj heq
    exact absurd (hget.symm.trans hfile) (by simp)

/-- a marker that is dropped is gone, and the others are not -/
theorem ends_release_of_apart (h : Apart fs (p :: ps)) :
    Ends (release p : Log.Speaking (StateM Files) Unit) fs fun _ fs' =>
      Apart fs' ps ∧ fs'.stat? p = none ∧ ∃ fs'', fs'.createNew p = .ok fs'' := by
  obtain ⟨⟨place, content, hspot, hfile⟩, hthere⟩ := List.forall_mem_cons.mp h.there
  obtain ⟨hp, hps⟩ := List.pairwise_cons.mp h.distinct
  refine (ends_release_of_spot? hspot hfile).imp fun _ fs' h' => ?_
  subst h'
  have hdirs := Files.dir_erase (show fs.get? place ≠ some .dir by simp [hfile])
  have hspot' := Files.spot?_mono hdirs hspot
  have hgone := fs.get?_erase_self (Files.names_ne_nil_of_spot? hspot)
  refine ⟨Apart.transfer ⟨hthere, hps⟩ hdirs fun q hq other content' hother hcontent => ?_,
    (Files.stat?_of_spot? hspot').trans hgone, _, Files.createNew_of_spot? hspot' hgone⟩
  have hne : other ≠ place := by
    rintro rfl
    exact hp q hq (hspot.trans hother.symm)
  exact ⟨content', (fs.get?_erase_of_ne hne).trans hcontent⟩

/-! ### holders -/

namespace Held

variable {held : Held} {holder : String}

/-- Every holder has one marker, and the markers are files of their own. -/
structure Exclusive (fs : Files) (held : Held) : Prop where
  holders : (held.map Prod.fst).Nodup
  apart : Apart fs (held.map Prod.snd)

theorem not_mem_erase {x : String × Path} (hx : x ∈ held.erase holder) : x.1 ≠ holder := by
  simpa using (List.mem_filter.mp hx).2

/-- a holder's marker and the others -/
theorem perm_of_lookup (h : (held.map Prod.fst).Nodup) (hp : held.lookup holder = some p) :
    held.Perm ((holder, p) :: held.erase holder) := by
  obtain ⟨before, after, rfl, hbefore⟩ := List.lookup_eq_some_iff.mp hp
  have hafter : ∀ x ∈ after, x.1 ≠ holder := by
    rw [List.map_append, List.map_cons] at h
    have := (List.nodup_cons.mp (List.nodup_append.mp h).2.1).1
    rintro x hx rfl
    exact this (List.mem_map.mpr ⟨x, hx, rfl⟩)
  have herase : Held.erase (before ++ (holder, p) :: after) holder = before ++ after := by
    rw [Held.erase, List.filter_append, List.filter_cons_of_neg (by simp),
      List.filter_eq_self.mpr fun x hx => ?_, List.filter_eq_self.mpr fun x hx => ?_]
    · simpa using hafter x hx
    · exact bne_iff_ne.mpr (Ne.symm (bne_iff_ne.mp (hbefore x hx)))
  rw [herase]
  exact List.perm_middle

theorem erase_of_lookup (h : held.lookup holder = none) : held.erase holder = held := by
  refine List.filter_eq_self.mpr fun x hx => ?_
  exact bne_iff_ne.mpr (Ne.symm (bne_iff_ne.mp (List.lookup_eq_none_iff.mp h x hx)))

/-- a holder who gives up a marker, while other files are there -/
theorem ends_drop (hn : (held.map Prod.fst).Nodup) (h : Apart fs (ps ++ held.map Prod.snd)) :
    Ends (held.drop holder : Log.Speaking (StateM Files) Held) fs fun held' fs' =>
      held' = held.erase holder ∧ Apart fs' (ps ++ held'.map Prod.snd) ∧
        ∀ p, (holder, p) ∈ held → fs'.stat? p = none ∧ ∃ fs'', fs'.createNew p = .ok fs'' := by
  unfold Held.drop
  cases hl : held.lookup holder with
  | none =>
    have herase := erase_of_lookup hl
    refine fun _ => ⟨herase.symm, h, fun p hp => ?_⟩
    exact absurd rfl (not_mem_erase (herase.symm ▸ hp))
  | some q =>
    have hperm := perm_of_lookup hn hl
    have happart : Apart fs (q :: (ps ++ (held.erase holder).map Prod.snd)) :=
      h.perm (((hperm.map Prod.snd).append_left ps).trans List.perm_middle)
    refine (ends_release_of_apart happart).bind fun _ fs' hreleased _ => ?_
    obtain ⟨h1, h2, h3⟩ := hreleased
    refine ⟨rfl, h1, fun p hp => ?_⟩
    rcases List.mem_cons.mp (hperm.mem_iff.mp hp) with heq | hmem
    · obtain ⟨-, rfl⟩ := Prod.mk.inj heq
      exact ⟨h2, h3⟩
    · exact absurd rfl (not_mem_erase hmem)

theorem Exclusive.drop (h : Exclusive fs held) (holder : String) :
    Ends (held.drop holder : Log.Speaking (StateM Files) Held) fs fun held' fs' =>
      Exclusive fs' held' ∧
        ∀ p, (holder, p) ∈ held → fs'.stat? p = none ∧ ∃ fs'', fs'.createNew p = .ok fs'' := by
  have happart : Apart fs ([] ++ held.map Prod.snd) := h.apart
  refine (ends_drop h.holders happart).imp fun held' fs' hdrop => ?_
  obtain ⟨rfl, happart, hfree⟩ := hdrop
  exact ⟨⟨h.holders.sublist ((List.filter_sublist).map _), happart⟩, hfree⟩

theorem Exclusive.take (h : Exclusive fs held) (holder : String) (p : Path) :
    Ends (held.take holder p : Emitting (StateM Files) Held).run fs fun r fs' =>
      (∃ held', r = .ok held' ∧ Exclusive fs' held') ∨ ((∃ e, r = .error e) ∧ fs' = fs) := by
  refine Ends.bind_run ends_acquire (fun _ fs₁ hnew => ?_) fun e fs₁ hfailed => ?_
  · obtain ⟨-, hnew⟩ | ⟨_, -, hr, -⟩ := hnew
    case inr => exact absurd hr (by simp)
    have happart : Apart fs₁ ([p] ++ held.map Prod.snd) := h.apart.createNew hnew
    refine Ends.lift_speaking_run (ends_drop h.holders happart) fun held' fs₂ hdrop _ => .inl ?_
    obtain ⟨rfl, happart, -⟩ := hdrop
    refine ⟨_, rfl, ⟨List.nodup_cons.mpr ⟨fun hmem => ?_, ?_⟩, happart⟩⟩
    · obtain ⟨x, hx, hholder⟩ := List.mem_map.mp hmem
      exact not_mem_erase hx hholder
    · exact h.holders.sublist (List.filter_sublist.map _)
  · obtain ⟨hr, -⟩ | ⟨_, -, -, hfs⟩ := hfailed
    · exact absurd hr (by simp)
    · exact .inr ⟨⟨e, rfl⟩, hfs⟩

end Held

end Lock

/-! ### sessions -/

namespace Emission

open Lock (Held)

/-- what happens in a session -/
inductive Act where
  | take (holder : String) (p : Path)
  | drop (holder : String)
  | emit (module : Wasm.Module) (output : Path) (o : Options)

/-- The files, and the markers that are held. -/
structure Session where
  files : Files
  held : Held

namespace Session

def step (s : Session) : Act → Session
  | .take holder p =>
    let out := (s.held.take holder p : Emitting (StateM Files) Held).run [] s.files
    ⟨out.2, out.1.1.toOption.getD s.held⟩
  | .drop holder =>
    let out := (s.held.drop holder : Log.Speaking (StateM Files) Held) [] s.files
    ⟨out.2, out.1.1⟩
  | .emit module output o =>
    let out := (emit module output o : Emitting (StateM Files) Emitted).run [] s.files
    ⟨out.2, s.held⟩

def run (s : Session) (acts : List Act) : Session := acts.foldl step s

/-- no act makes two markers of one file or takes away a marker that is held -/
theorem exclusive_step {s : Session} (h : Held.Exclusive s.files s.held) (act : Act) :
    Held.Exclusive (s.step act).files (s.step act).held := by
  cases act with
  | take holder p =>
    obtain ⟨held', hr, hexclusive⟩ | ⟨⟨e, hr⟩, hfs⟩ := h.take holder p []
    · rw [step, hr]
      exact hexclusive
    · rw [step, hr, hfs]
      exact h
  | drop holder => exact (h.drop holder []).1
  | emit module output o =>
    exact ⟨h.holders, h.apart.keeps (ends_emit_grows listing module output o []).keeps⟩

theorem exclusive_run {s : Session} (h : Held.Exclusive s.files s.held) (acts : List Act) :
    Held.Exclusive (s.run acts).files (s.run acts).held := by
  induction acts generalizing s with
  | nil => exact h
  | cons act acts ih => exact ih (exclusive_step h act)

/-- **Markers are exclusive.**  Whatever happens in a session that begins without markers, the
markers that are held lead to files, and no two of them to the same.  An emission whose marker is
one of these files says that the outputs collide and changes nothing.  The path of a marker that is
dropped is free, and the marker can be acquired again. -/
theorem run_exclusive (fs : Files) (acts : List Act) :
    let s := run ⟨fs, []⟩ acts
    (∀ x ∈ s.held, ∃ content, s.files.stat? x.2 = some (.file content)) ∧
    s.held.Pairwise (fun x y => s.files.spot? x.2 ≠ s.files.spot? y.2) ∧
    (∀ x ∈ s.held, ∀ module output o log, output.fileName?.isSome →
      s.files.spot? output.lock = s.files.spot? x.2 →
      ∃ log', (emit module output o : Emitting (StateM Files) Emitted).run log s.files
        = ((.error (.collision output.lock), log'), s.files)) ∧
    ∀ holder p, (holder, p) ∈ s.held →
      (s.step (.drop holder)).files.stat? p = none ∧
      ∀ log, ∃ log' fs', (Lock.acquire p : Emitting (StateM Files) Unit).run log
        (s.step (.drop holder)).files = ((.ok (), log'), fs') := by
  intro s
  have hempty : Held.Exclusive fs [] := ⟨List.nodup_nil, Lock.apart_nil fs⟩
  have h : Held.Exclusive s.files s.held := exclusive_run (s := ⟨fs, []⟩) hempty acts
  have hthere (x : String × Path) (hx : x ∈ s.held) :=
    h.apart.there x.2 (List.mem_map.mpr ⟨x, hx, rfl⟩)
  have hdistinct := h.apart.distinct
  rw [List.pairwise_map] at hdistinct
  refine ⟨fun x hx => ?_, hdistinct, ?_, ?_⟩
  · obtain ⟨place, content, hspot, hfile⟩ := hthere x hx
    exact ⟨content, (Files.stat?_of_spot? hspot).trans hfile⟩
  · intro x hx module output o log hname hlock
    obtain ⟨place, content, hspot, hfile⟩ := hthere x hx
    have hstat := (Files.stat?_of_spot? (hlock.trans hspot)).trans hfile
    obtain ⟨hr, hfs⟩ := ends_emit_of_stat? hstat listing module o log
    rw [if_pos hname] at hr
    exact ⟨_, Prod.ext (Prod.ext hr rfl) hfs⟩
  · intro holder p hp
    obtain ⟨-, hfree⟩ := h.drop holder []
    obtain ⟨hgone, fs', hnew⟩ := hfree p hp
    refine ⟨hgone, fun log => ?_⟩
    obtain ⟨hr, -⟩ | ⟨e, herr, -⟩ := Lock.ends_acquire (p := p) log
    · exact ⟨_, _, Prod.ext (Prod.ext hr rfl) rfl⟩
    · exact absurd (hnew.symm.trans herr) (by simp)

/-- two holders ask for one file -/
def rivals : List Act := [.take "one" ⟨"a.lock"⟩, .take "two" ⟨"./a.lock"⟩]

theorem run_exclusive_rivals : (run ⟨.empty, []⟩ rivals).held = [("one", ⟨"a.lock"⟩)] ∧
    ∃ log, (emit ⟨none, [], [], []⟩ ⟨"a"⟩ { } : Emitting (StateM Files) Emitted).run []
      (run ⟨.empty, []⟩ rivals).files
        = ((.error (.collision ⟨"a.lock"⟩), log), (run ⟨.empty, []⟩ rivals).files) := by
  have hheld : (run ⟨.empty, []⟩ rivals).held = [("one", ⟨"a.lock"⟩)] := by decide +kernel
  obtain ⟨-, -, h, -⟩ := run_exclusive .empty rivals
  exact ⟨hheld, h ("one", ⟨"a.lock"⟩) (hheld ▸ List.mem_cons_self) ⟨none, [], [], []⟩ ⟨"a"⟩ { } []
    (by decide +kernel) rfl⟩

end Session

end Emission

end AnfWasm
