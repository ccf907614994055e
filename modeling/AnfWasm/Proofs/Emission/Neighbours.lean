import AnfWasm.Proofs.Emission.Effect

/-!
# Outputs of one directory

The files of an output have its name with a suffix.  Those of two names in one directory are the
same in no case but one: that one of the names is the other with such a suffix (`families_meet`).
An emission touches the files of its own name only, and an existing directory or one without `..` is
not changed when it is made for an output (`steady_makeDir`).
-/

namespace AnfWasm

/-! ### names in a directory -/

namespace Path

/-- A name that a file can have. -/
structure Plain (name : String) : Prop where
  nonempty : name ≠ ""
  noSlash : '/' ∉ name.toList
  notDot : name ≠ "."
  notDots : name ≠ ".."

/-- the path of a name in a directory -/
def join (dir : Path) (name : String) : Path :=
  if dir.text = "" ∨ dir.endsInSlash then dir.withSuffix name else ⟨dir.text ++ "/" ++ name⟩

variable {dir : Path} {name : String}

theorem withSuffix_join (dir : Path) (name suffix : String) :
    (dir.join name).withSuffix suffix = dir.join (name ++ suffix) := by
  unfold join
  split <;> simp only [withSuffix, String.append_assoc]

theorem join_inj {a b : String} (h : dir.join a = dir.join b) : a = b := by
  unfold join at h
  split at h <;> exact (String.append_right_inj _).mp (Path.mk.inj h)

theorem segments_append_slash (a b : String) :
    segments ⟨a ++ "/" ++ b⟩ = segments ⟨a⟩ ++ segments ⟨b⟩ := by
  have htext : (a ++ "/" ++ b).toList = a.toList ++ '/' :: b.toList := by
    simp [String.toList_append]
  rw [segments, htext, split_slash, List.map_append]
  rfl

theorem segments_of_noSlash (h : '/' ∉ name.toList) : segments ⟨name⟩ = [name] := by
  rw [segments, split_of_not_mem h, List.map_singleton, String.ofList_toList]

/-- the last segment of a name in a directory is the name, and the others are the directory's -/
theorem segments_join (dir : Path) : ∃ init, (dir.segments = init ∨ dir.segments = init ++ [""]) ∧
    ∀ name : String, '/' ∉ name.toList → (dir.join name).segments = init ++ [name] := by
  obtain ⟨text⟩ := dir
  by_cases hempty : text = ""
  · subst hempty
    refine ⟨[], .inr rfl, fun name hname => ?_⟩
    rw [join, if_pos (.inl rfl), withSuffix, String.empty_append]
    exact segments_of_noSlash hname
  by_cases hslash : endsInSlash ⟨text⟩ = true
  · obtain ⟨cs, hcs⟩ := List.getLast?_eq_some_iff.mp (of_decide_eq_true hslash)
    obtain rfl : text = String.ofList cs ++ "/" := by
      rw [← String.toList_inj, hcs, String.toList_append, String.toList_ofList]
      rfl
    refine ⟨segments ⟨String.ofList cs⟩, .inr ?_, fun name hname => ?_⟩
    · have hsegments := segments_append_slash (String.ofList cs) ""
      rw [String.append_empty] at hsegments
      exact hsegments
    · rw [join, if_pos (.inr hslash), withSuffix, segments_append_slash, segments_of_noSlash hname]
  · refine ⟨segments ⟨text⟩, .inl rfl, fun name hname => ?_⟩
    rw [join, if_neg (not_or.mpr ⟨hempty, hslash⟩), segments_append_slash,
      segments_of_noSlash hname]

theorem names_join (h : Plain name) : (dir.join name).names = dir.names ++ [name] := by
  obtain ⟨init, hdir, hjoin⟩ := dir.segments_join
  have hnames : dir.names = init.filter (!·.isEmpty) := by
    rcases hdir with hdir | hdir <;> simp [names, hdir]
  rw [hnames, names, hjoin name h.noSlash, List.filter_append,
    List.filter_cons_of_pos (by simpa using h.nonempty), List.filter_nil]

theorem isRooted_join (h : Plain name) : (dir.join name).isRooted = dir.isRooted := by
  unfold join
  split
  · exact dir.isRooted_withSuffix h.noSlash
  · rename_i hne
    obtain ⟨c, cs, hc⟩ := List.exists_cons_of_ne_nil
      (fun hnil => (not_or.mp hne).1 (String.toList_eq_nil_iff.mp hnil))
    simp [isRooted, String.toList_append, hc]

theorem endsInSlash_join (h : Plain name) : (dir.join name).endsInSlash = false := by
  have hlast (text : String) : endsInSlash ⟨text ++ name⟩ = false := by
    have hne : name.toList ≠ [] := fun hnil => h.nonempty (String.toList_eq_nil_iff.mp hnil)
    rw [endsInSlash, String.toList_append, List.getLast?_append_of_ne_nil _ hne]
    exact decide_eq_false fun hslash => h.noSlash (List.mem_of_getLast? hslash)
  unfold join
  split <;> exact hlast _

theorem fileName?_join (h : Plain name) : (dir.join name).fileName? = some name := by
  obtain ⟨init, -, hjoin⟩ := dir.segments_join
  have htrim : trim (dir.join name).segments.reverse = name :: init.reverse := by
    rw [hjoin name h.noSlash, List.reverse_append, List.reverse_singleton, List.singleton_append]
    cases init.reverse <;> simp [trim, h.nonempty, h.notDot]
  rw [fileName?, htrim]
  simp [h.notDot, h.notDots]

/-- the parent of a name in a directory is that directory, or shorter for the same -/
theorem along_of_parent?_join {parent : Path} (h : Plain name)
    (hparent : parent ∈ (dir.join name).ancestors.tail) : parent.Along dir := by
  obtain ⟨init, hdir, hjoin⟩ := dir.segments_join
  obtain ⟨t, ss, -, rfl | ⟨s, ts, rest, hs, ht, rfl, hsegments⟩⟩ := mem_ancestors_tail hparent
  · rw [isRooted_join h]
    exact dir.along_start
  · obtain ⟨rest, x, rfl⟩ := (List.eq_nil_or_concat rest).resolve_left (List.ne_nil_of_mem ht)
    rw [hjoin name h.noSlash, List.concat_eq_append, ← List.append_assoc] at hsegments
    obtain ⟨rfl, -⟩ := List.append_inj' hsegments rfl
    rcases hdir with hdir | hdir
    · exact along_ofReversed hs hdir
    · exact along_ofReversed hs (hdir.trans (List.append_assoc _ _ _))

/-- different names in a directory are different files -/
theorem disjoint_join {a b : String} (ha : Plain a) (hb : Plain b) (hne : a ≠ b) :
    (dir.join a).Disjoint (dir.join b) := by
  intro fs x y hx hy
  have hroot : (dir.join a).isRooted = (dir.join b).isRooted := by
    rw [isRooted_join ha, isRooted_join hb]
  obtain ⟨_, rfl, rfl⟩ := Files.spot?_beside hroot (names_join ha) (names_join hb) hx hy
  exact fun h => hne (Place.child_inj h).2

end Path

namespace Emission

open AnfWasm.Path (Plain)

variable {fs fs' : Files} {dir : Path} {n n₁ n₂ : String}

/-! ### families -/

/-- one name is the other with the suffix of a companion -/
def Extends (m n : String) : Prop := ∃ s ∈ [".lock", ".map", ".wast", ".modsig"], m = n ++ s

instance (m n : String) : Decidable (Extends m n) :=
  inferInstanceAs (Decidable (∃ s ∈ [".lock", ".map", ".wast", ".modsig"], m = n ++ s))

theorem mem_family_join {p : Path} :
    p ∈ family (dir.join n) ↔ ∃ s ∈ suffixes, p = dir.join (n ++ s) := by
  rw [family_eq, List.mem_map]
  simp only [Path.withSuffix_join, eq_comm (b := p)]

theorem extends_of_mem {s : String} (hs : s ∈ suffixes) (hne : s ≠ "") : Extends (n ++ s) n := by
  refine ⟨s, ?_, rfl⟩
  simp only [suffixes, List.mem_cons, List.not_mem_nil, hne] at hs ⊢
  simpa using hs

/-- the suffixes differ in their last characters -/
theorem suffix_inj : ∀ s ∈ suffixes, ∀ t ∈ suffixes, s ≠ "" → t ≠ "" →
    s.toList.getLast? = t.toList.getLast? → s = t := by
  decide +kernel

theorem extends_of_append {s t : String} (hs : s ∈ suffixes) (ht : t ∈ suffixes) (hne : n₁ ≠ n₂)
    (h : n₁ ++ s = n₂ ++ t) : Extends n₁ n₂ ∨ Extends n₂ n₁ := by
  by_cases hs' : s = ""
  · rw [hs', String.append_empty] at h
    refine .inl (h ▸ extends_of_mem ht fun ht' => hne ?_)
    rw [h, ht', String.append_empty]
  by_cases ht' : t = ""
  · rw [ht', String.append_empty] at h
    exact .inr (h ▸ extends_of_mem hs hs')
  have hlast (m : String) {s : String} (hs : s ≠ "") :
      (m ++ s).toList.getLast? = s.toList.getLast? := by
    rw [String.toList_append]
    exact List.getLast?_append_of_ne_nil _ fun hnil => hs (String.toList_eq_nil_iff.mp hnil)
  obtain rfl := suffix_inj s hs t ht hs' ht' (by rw [← hlast n₁ hs', h, hlast n₂ ht'])
  exact absurd ((String.append_left_inj s).mp h) hne

/-- two names have a file in common if one is the other with a suffix -/
theorem families_meet (dir : Path) (hne : n₁ ≠ n₂) :
    (∃ p, p ∈ family (dir.join n₁) ∧ p ∈ family (dir.join n₂)) ↔
      Extends n₁ n₂ ∨ Extends n₂ n₁ := by
  constructor
  · rintro ⟨p, h1, h2⟩
    obtain ⟨s, hs, rfl⟩ := mem_family_join.mp h1
    obtain ⟨t, ht, heq⟩ := mem_family_join.mp h2
    exact extends_of_append hs ht hne (Path.join_inj heq)
  · have hsub : ∀ s ∈ [".lock", ".map", ".wast", ".modsig"], s ∈ suffixes := by decide +kernel
    have hself (n : String) : dir.join n ∈ family (dir.join n) :=
      mem_family_join.mpr ⟨"", by decide +kernel, by rw [String.append_empty]⟩
    rintro (⟨s, hs, rfl⟩ | ⟨s, hs, rfl⟩)
    · exact ⟨_, hself _, mem_family_join.mpr ⟨s, hsub s hs, rfl⟩⟩
    · exact ⟨_, mem_family_join.mpr ⟨s, hsub s hs, rfl⟩, hself _⟩

theorem plain_append (h : Plain n) {s : String} (hs : s ∈ suffixes) : Plain (n ++ s) := by
  have hlong : ∀ s ∈ suffixes, s = "" ∨ 2 < s.length := by decide +kernel
  rcases hlong s hs with rfl | hlong
  · rwa [String.append_empty]
  · have hlength : 2 < (n ++ s).length := by
      rw [String.length_append]
      omega
    refine ⟨?_, ?_, ?_, ?_⟩
    · exact fun heq => absurd (heq ▸ hlength) (by decide)
    · rw [String.toList_append, List.mem_append, not_or]
      exact ⟨h.noSlash, slash_not_mem_suffixes s hs⟩
    · exact fun heq => absurd (heq ▸ hlength) (by decide)
    · exact fun heq => absurd (heq ▸ hlength) (by decide)

theorem plain_of_mem_family (h : Plain n) {p : Path} (hp : p ∈ family (dir.join n)) :
    ∃ x, Plain x ∧ p = dir.join x := by
  obtain ⟨s, hs, rfl⟩ := mem_family_join.mp hp
  exact ⟨n ++ s, plain_append h hs, rfl⟩

theorem disjoint_families (h₁ : Plain n₁) (h₂ : Plain n₂) (hne : n₁ ≠ n₂) (h12 : ¬Extends n₁ n₂)
    (h21 : ¬Extends n₂ n₁) {p q : Path} (hp : p ∈ family (dir.join n₁))
    (hq : q ∈ family (dir.join n₂)) : p.Disjoint q := by
  obtain ⟨x, hx, rfl⟩ := plain_of_mem_family h₁ hp
  obtain ⟨y, hy, rfl⟩ := plain_of_mem_family h₂ hq
  refine Path.disjoint_join hx hy ?_
  rintro rfl
  exact ((families_meet dir hne).mp ⟨_, hp, hq⟩).elim h12 h21

/-! ### the directory of an output -/

/-- The directory is there, or can be made without a change of what is in it. -/
structure Settled (dir : Path) (fs : Files) : Prop where
  closed : fs.Closed
  there : fs.isDir dir = true ∨ ".." ∉ dir.segments

/-- What is in a directory has not changed. -/
def Steady (dir : Path) (fs fs' : Files) : Prop :=
  Settled dir fs → Settled dir fs' ∧ ∀ x, Plain x → fs'.stat? (dir.join x) = fs.stat? (dir.join x)

theorem steady_refl (dir : Path) (fs : Files) : Steady dir fs fs := fun h => ⟨h, fun _ _ => rfl⟩

theorem Steady.trans {fs₁ fs₂ fs₃ : Files} (h1 : Steady dir fs₁ fs₂) (h2 : Steady dir fs₂ fs₃) :
    Steady dir fs₁ fs₃ := by
  intro h
  obtain ⟨h, hsame⟩ := h1 h
  obtain ⟨h, hsame'⟩ := h2 h
  exact ⟨h, fun x hx => (hsame' x hx).trans (hsame x hx)⟩

theorem depth_join (h : Plain n) : depth (dir.join n) = depth dir + 1 := by
  rw [depth, depth, Path.names_join h, List.filter_append, List.length_append,
    List.filter_cons_of_pos (by simpa using h.notDot)]
  rfl

theorem dots_not_mem_names_join (h : Plain n) (hdots : ".." ∉ dir.segments) :
    ".." ∉ (dir.join n).names := by
  rw [Path.names_join h, List.mem_append, List.mem_singleton, not_or]
  exact ⟨fun hmem => hdots (Path.mem_names.mp hmem).1, h.notDots.symm⟩

theorem dots_not_mem_segments_join (h : Plain n) (hdots : ".." ∉ dir.segments) :
    ".." ∉ (dir.join n).segments :=
  fun hmem => dots_not_mem_names_join h hdots (Path.mem_names.mpr ⟨hmem, by decide⟩)

theorem lock_join (dir : Path) (n : String) : (dir.join n).lock = dir.join (n ++ ".lock") :=
  dir.withSuffix_join n ".lock"

theorem steady_makeDir {parent q : Path} (h : Plain n)
    (hparent : (dir.join n).parent? = some parent) (hq : q ∈ parent.ancestors)
    (hmake : fs.makeDir q = .ok fs') : Steady dir fs fs' := by
  rintro ⟨hc, hdir | hdots⟩
  · have hparent := Path.along_of_parent?_join h (mem_ancestors_of_parent? hparent)
    have hq := (Path.along_of_mem_ancestors hq).trans hparent
    exact absurd hmake (Files.makeDir_along hq hdir)
  · have hgrows := Files.makeDir_grows hmake
    have hsame := sameBelow_makeDir (dots_not_mem_segments_join h hdots)
      (above_of_mem_ancestors_parent? hparent hq) hmake
    rw [lock_join, depth_join (plain_append h (by decide +kernel))] at hsame
    refine ⟨⟨hgrows.closed hc, .inr hdots⟩, fun x hx => ?_⟩
    exact stat?_of_sameBelow hc (Path.names_join hx) hx.notDot (dots_not_mem_names_join hx hdots)
      (Path.endsInSlash_join hx) hgrows.keeps (depth_join hx ▸ hsame)

/-! ### emissions -/

theorem Puts.dir_before {as : List Artifact} (h : Puts as fs fs') (place : Place)
    (hdir : fs'.get? place = some .dir) : fs.get? place = some .dir := by
  rw [← h.rest place fun a ha hspot => ?_, hdir]
  obtain ⟨content, place', -, hspot', hget⟩ := h.there a ha
  obtain rfl := Option.some.inj (hspot'.symm.trans hspot)
  exact absurd (hdir.symm.trans hget) (by simp)

/-- a file stays as it is while others are written -/
theorem Puts.stat?_join {as : List Artifact} (h : Puts as fs fs') (hn : Plain n)
    (hd : ∀ a ∈ as, (dir.join n).Disjoint a.path) :
    fs'.stat? (dir.join n) = fs.stat? (dir.join n) := by
  have hstat {fs : Files} {e : Entry} (he : fs.stat? (dir.join n) = some e) :=
    Files.spot?_of_stat? (Path.names_join hn) hn.notDot hn.notDots (Path.endsInSlash_join hn) he
  have hrest {place : Place} (hspot : fs'.spot? (dir.join n) = some place) :
      fs'.get? place = fs.get? place := h.rest place fun a ha ha' => hd a ha hspot ha' rfl
  refine Option.ext fun e => ⟨fun he => ?_, fun he => ?_⟩
  · obtain ⟨place, hspot, hget⟩ := hstat he
    rw [Files.stat?_of_spot? (Files.spot?_mono h.dir_before hspot), ← hrest hspot, hget]
  · obtain ⟨place, hspot, hget⟩ := hstat he
    have hspot' := Files.spot?_mono h.keeps.dir hspot
    rw [Files.stat?_of_spot? hspot', hrest hspot', hget]

/-- an emission touches the files of its own name only -/
theorem Written.stat?_join {render : Renderer} {m : Wasm.Module} {file : String} {o : Options}
    {r : Except EmitError Emitted} (h : Written render m (dir.join n₂) file o r fs fs')
    (hn : Plain n)
    (hd : ∀ q ∈ family (dir.join n₂), (dir.join n).Disjoint q) :
    fs'.stat? (dir.join n) = fs.stat? (dir.join n) := by
  obtain ⟨as, hsub, hputs, -⟩ := h.puts
  refine hputs.stat?_join hn fun a ha => hd a.path ?_
  exact List.mem_of_mem_tail (path_mem_family (hsub a ha))

/-- an emission that has come to its files does not collide any more -/
theorem not_written_collision {render : Renderer} {m : Wasm.Module} {output p : Path}
    {file : String} {o : Options} :
    ¬Written render m output file o (.error (.collision p)) fs fs' := by
  rintro (⟨hr, -⟩ | ⟨done, a, rest, e, heq, hr, hfails, -⟩)
  · exact absurd hr (by simp)
  · obtain rfl := Except.error.inj hr
    have ha : a ∈ artifacts render m output file o :=
      heq ▸ List.mem_append_right _ List.mem_cons_self
    obtain h | ⟨h, -⟩ := hfails.unwritten (faithful_of_mem ha)
    · exact absurd h (by simp [EmitError.unwritten?])
    · exact absurd h (by simp)

section
variable {render : Renderer} {m : Wasm.Module} {o : Options} {log log' : List LogRecord}
  {r : Except EmitError Emitted}

/-- an emission makes its directory, and what is there stays as it is until it writes -/
theorem emit_join_outcome (hn : Plain n) (hfs : Settled dir fs)
    (h : (emitWith render m (dir.join n) o : Emitting (StateM Files) Emitted).run log fs
      = ((r, log'), fs')) :
    ∃ fs₁, (∀ x, Plain x → fs₁.stat? (dir.join x) = fs.stat? (dir.join x)) ∧
      ((fs' = fs₁ ∧ ∀ p, r = .error (.collision p) → Collides (dir.join n) p fs₁) ∨
        ∃ file, Written render m (dir.join n) file o r fs₁ fs') := by
  have hout := emit_outcome (R := Steady dir) (steady_refl dir) Steady.trans
    (fun _ _ parent hparent q hq _ _ => steady_makeDir hn hparent hq) render m o log h
  obtain ⟨-, e, rfl, hsteady, hcollides⟩ | ⟨-, file, fs₁, -, hsteady, hwritten⟩ := hout
  · exact ⟨fs', (hsteady hfs).2, .inl ⟨rfl, fun p hp => hcollides p (Except.error.inj hp)⟩⟩
  · exact ⟨fs₁, (hsteady hfs).2, .inr ⟨file, hwritten⟩⟩

/-- what is in the directory and not one of its files is left alone -/
theorem stat?_emit_join (hn : Plain n) (hfs : Settled dir fs)
    (h : (emitWith render m (dir.join n) o : Emitting (StateM Files) Emitted).run log fs
      = ((r, log'), fs'))
    {x : String} (hx : Plain x) (hd : ∀ q ∈ family (dir.join n), (dir.join x).Disjoint q) :
    fs'.stat? (dir.join x) = fs.stat? (dir.join x) := by
  obtain ⟨fs₁, hsame, ⟨rfl, -⟩ | ⟨file, hwritten⟩⟩ := emit_join_outcome hn hfs h
  · exact hsame x hx
  · rw [hwritten.stat?_join hx hd, hsame x hx]

theorem emit_join_collision (hn : Plain n) (hfs : Settled dir fs)
    (h : (emitWith render m (dir.join n) o : Emitting (StateM Files) Emitted).run log fs
      = ((r, log'), fs'))
    (p : Path) : r = .error (.collision p) ↔ Collides (dir.join n) p fs := by
  constructor
  · rintro rfl
    obtain ⟨fs₁, hsame, ⟨-, hcollides⟩ | ⟨file, hwritten⟩⟩ := emit_join_outcome hn hfs h
    · obtain ⟨hp, hsome⟩ := hcollides p rfl
      rw [lock_join, hsame _ (plain_append hn (by decide +kernel)), ← lock_join] at hsome
      exact ⟨hp, hsome⟩
    · exact absurd hwritten not_written_collision
  · rintro ⟨rfl, hsome⟩
    obtain ⟨e, he⟩ := Option.isSome_iff_exists.mp hsome
    have hr := (ends_emit_of_stat? he render m o log).1
    rw [h, Path.fileName?_join hn] at hr
    exact hr

end

/-- **Outputs of one directory do not disturb each other.**  Two names have a file in common exactly
if one is the other with the suffix of a companion.  If not, all their files are different, and an
emission to the one leaves those of the other as they are, whatever it writes and however it ends.
It collides exactly if there is something under the path of its own marker.  Only a directory whose
path goes up again has to be there before. -/
theorem emit_apart (dir : Path) (n₁ n₂ : String) (h₁ : Plain n₁) (h₂ : Plain n₂) (hne : n₁ ≠ n₂) :
    ((∃ p, p ∈ family (dir.join n₁) ∧ p ∈ family (dir.join n₂)) ↔
      Extends n₁ n₂ ∨ Extends n₂ n₁) ∧
    (¬Extends n₁ n₂ → ¬Extends n₂ n₁ →
      (∀ p ∈ family (dir.join n₁), ∀ q ∈ family (dir.join n₂), p.Disjoint q) ∧
      ∀ fs : Files, fs.Closed → fs.isDir dir = true ∨ ".." ∉ dir.segments →
        ∀ (m : Wasm.Module) (o : Options) (log : List LogRecord), ∃ r log' fs',
          (emit m (dir.join n₂) o : Emitting (StateM Files) Emitted).run log fs
            = ((r, log'), fs') ∧
          (∀ p ∈ family (dir.join n₁), fs'.stat? p = fs.stat? p) ∧
          ∀ p, r = .error (.collision p) ↔
            p = (dir.join n₂).lock ∧ (fs.stat? (dir.join n₂).lock).isSome) := by
  refine ⟨families_meet dir hne, fun h12 h21 => ?_⟩
  have hd : ∀ p ∈ family (dir.join n₁), ∀ q ∈ family (dir.join n₂), p.Disjoint q :=
    fun p hp q hq => disjoint_families h₁ h₂ hne h12 h21 hp hq
  refine ⟨hd, fun fs hc hdir m o log => ⟨_, _, _, rfl, fun p hp => ?_, fun p => ?_⟩⟩
  · obtain ⟨x, hx, rfl⟩ := plain_of_mem_family h₁ hp
    exact stat?_emit_join h₂ ⟨hc, hdir⟩ rfl hx (hd _ hp)
  · exact emit_join_collision h₂ ⟨hc, hdir⟩ rfl p

/-- files with the marker of an output that is being written -/
def busy : Files :=
  (Files.empty.insert (Place.here.child "lib") .dir).insert (Place.here.child "a.map.lock")
    (.file [])

theorem emit_apart_busy : Plain "a.map" ∧ Plain "a.lock" ∧ ¬Extends "a.map" "a.lock" ∧
    ¬Extends "a.lock" "a.map" ∧ busy.Closed ∧ busy.isDir ⟨"lib/.."⟩ = true ∧
    busy.stat? ⟨"lib/../a.map.lock"⟩ = some (.file []) ∧ ∃ r log fs',
      (emit ⟨none, [], [], []⟩ ⟨"lib/../a.lock"⟩ ⟨true, true⟩ :
        Emitting (StateM Files) Emitted).run [] busy = ((r, log), fs') ∧
      fs'.stat? ⟨"lib/../a.map.lock"⟩ = some (.file []) ∧
      ∀ p, r ≠ .error (.collision p) := by
  have h₁ : Plain "a.map" := ⟨by decide, by decide, by decide, by decide⟩
  have h₂ : Plain "a.lock" := ⟨by decide, by decide, by decide, by decide⟩
  have h12 : ¬Extends "a.map" "a.lock" := by decide +kernel
  have h21 : ¬Extends "a.lock" "a.map" := by decide +kernel
  have hc : busy.Closed := by
    refine Files.Closed.insert ?_ (Files.get?_of_names_eq_nil rfl) (by decide +kernel)
    exact Files.closed_empty.insert (Files.get?_of_names_eq_nil rfl) (by decide)
  have hdir : busy.isDir ⟨"lib/.."⟩ = true := by decide +kernel
  have hmarker : busy.stat? ⟨"lib/../a.map.lock"⟩ = some (.file []) := by decide +kernel
  obtain ⟨-, h⟩ := emit_apart ⟨"lib/.."⟩ "a.map" "a.lock" h₁ h₂ (by decide)
  obtain ⟨r, log, fs', hrun, hsame, hcollision⟩ :=
    (h h12 h21).2 busy hc (.inl hdir) ⟨none, [], [], []⟩ ⟨true, true⟩ []
  refine ⟨h₁, h₂, h12, h21, hc, hdir, hmarker, r, log, fs', ?_, ?_, fun p hp => ?_⟩
  · exact hrun
  · rw [← hmarker]
    exact hsame _ (by decide +kernel)
  · exact absurd ((hcollision p).mp hp).2 (by decide +kernel)

end Emission

end AnfWasm
