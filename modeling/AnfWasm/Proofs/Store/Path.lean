import AnfWasm.Store.Path

/-!
# Names on a path

The segments of a path that are not empty are its names.  A directory above a path (`Above`) has the
first of its names and starts at the same place; that is so for all `ancestors` of a path but the
path itself, and stays so when a suffix is added to the path.
-/

namespace AnfWasm

namespace Path

/-! ### texts and segments -/

theorem split_ne_nil (cs : List Char) : split cs ≠ [] := by
  cases cs with
  | nil => exact List.cons_ne_nil _ _
  | cons c cs =>
    rw [split]
    split
    · exact List.cons_ne_nil _ _
    · split <;> exact List.cons_ne_nil _ _

theorem split_cons_of_ne {c : Char} (hc : c ≠ '/') {cs s : List Char} {ss : List (List Char)}
    (h : split cs = s :: ss) : split (c :: cs) = (c :: s) :: ss := by
  rw [split, if_neg hc, h]

theorem split_of_not_mem {s : List Char} (hs : '/' ∉ s) : split s = [s] := by
  induction s with
  | nil => rfl
  | cons c s ih =>
    rw [List.mem_cons, not_or] at hs
    exact split_cons_of_ne (Ne.symm hs.1) (ih hs.2)

theorem split_append_slash {s : List Char} (hs : '/' ∉ s) (rest : List Char) :
    split (s ++ '/' :: rest) = s :: split rest := by
  induction s with
  | nil => rw [List.nil_append, split, if_pos rfl]
  | cons c s ih =>
    rw [List.mem_cons, not_or] at hs
    exact split_cons_of_ne (Ne.symm hs.1) (ih hs.2)

theorem split_slash (cs rest : List Char) :
    split (cs ++ '/' :: rest) = split cs ++ split rest := by
  induction cs with
  | nil => exact split_append_slash List.not_mem_nil rest
  | cons c cs ih =>
    by_cases hc : c = '/'
    · rw [List.cons_append, split, if_pos hc, ih, split, if_pos hc, List.cons_append]
    · obtain ⟨s, ss, hs⟩ := List.exists_cons_of_ne_nil (split_ne_nil cs)
      rw [hs, List.cons_append] at ih
      rw [split_cons_of_ne hc hs, List.cons_append, List.cons_append]
      exact split_cons_of_ne hc ih

/-- a suffix without slashes goes to the last piece -/
theorem split_append (cs : List Char) : ∃ init last, split cs = init ++ [last] ∧
    (last = [] → cs = [] ∨ cs.getLast? = some '/') ∧
    ∀ suffix, '/' ∉ suffix → split (cs ++ suffix) = init ++ [last ++ suffix] := by
  induction cs with
  | nil => exact ⟨[], [], rfl, fun _ => .inl rfl, fun suffix hs => split_of_not_mem hs⟩
  | cons c cs ih =>
    obtain ⟨init, last, h1, hempty, h2⟩ := ih
    by_cases hc : c = '/'
    · refine ⟨[] :: init, last, ?_, fun hlast => .inr ?_, fun suffix hs => ?_⟩
      · rw [split, if_pos hc, h1, List.cons_append]
      · rcases hempty hlast with rfl | hslash
        · rw [hc]
          rfl
        · rw [List.getLast?_cons, hslash]
          rfl
      · rw [List.cons_append, split, if_pos hc, h2 suffix hs, List.cons_append]
    · cases init with
      | nil =>
        exact ⟨[], c :: last, split_cons_of_ne hc h1, fun hlast => absurd hlast (by simp),
          fun suffix hs => split_cons_of_ne hc (h2 suffix hs)⟩
      | cons s init =>
        refine ⟨(c :: s) :: init, last, split_cons_of_ne hc h1, fun hlast => .inr ?_,
          fun suffix hs => split_cons_of_ne hc (h2 suffix hs)⟩
        rcases hempty hlast with rfl | hslash
        · exact absurd h1 (by simp [split])
        · rw [List.getLast?_cons, hslash]
          rfl

theorem slash_not_mem_of_mem_split {cs s : List Char} (h : s ∈ split cs) : '/' ∉ s := by
  induction cs generalizing s with
  | nil =>
    obtain rfl := List.mem_singleton.mp h
    exact List.not_mem_nil
  | cons c cs ih =>
    by_cases hc : c = '/'
    · rw [split, if_pos hc] at h
      rcases List.mem_cons.mp h with rfl | h
      · exact List.not_mem_nil
      · exact ih h
    · obtain ⟨t, ts, ht⟩ := List.exists_cons_of_ne_nil (split_ne_nil cs)
      rw [split_cons_of_ne hc ht] at h
      rw [ht] at ih
      rcases List.mem_cons.mp h with rfl | h
      · rw [List.mem_cons, not_or]
        exact ⟨Ne.symm hc, ih List.mem_cons_self⟩
      · exact ih (List.mem_cons_of_mem _ h)

theorem intercalate_split (cs : List Char) : ['/'].intercalate (split cs) = cs := by
  induction cs with
  | nil => rfl
  | cons c cs ih =>
    obtain ⟨s, ss, hs⟩ := List.exists_cons_of_ne_nil (split_ne_nil cs)
    rw [hs] at ih
    by_cases hc : c = '/'
    · rw [split, if_pos hc, hs, List.intercalate_cons_cons, ih, hc]
      rfl
    · rw [split_cons_of_ne hc hs]
      cases ss with
      | nil => simpa [List.intercalate] using ih
      | cons t ts =>
        rw [List.intercalate_cons_cons] at ih ⊢
        rw [List.cons_append, List.cons_append, ih]

theorem split_intercalate {ss : List (List Char)} (hne : ss ≠ []) (h : ∀ s ∈ ss, '/' ∉ s) :
    split (['/'].intercalate ss) = ss := by
  induction ss with
  | nil => exact absurd rfl hne
  | cons s ss ih =>
    obtain ⟨hs, hss⟩ := List.forall_mem_cons.mp h
    cases ss with
    | nil => simpa [List.intercalate] using split_of_not_mem hs
    | cons t ts =>
      rw [List.intercalate_cons_cons, List.append_assoc, List.singleton_append,
        split_append_slash hs, ih (List.cons_ne_nil _ _) hss]

theorem intercalate_segments (p : Path) : "/".intercalate p.segments = p.text := by
  rw [← String.toList_inj, String.toList_intercalate, segments, List.map_map]
  have hid : (String.toList ∘ String.ofList) = id := funext fun _ => String.toList_ofList
  rw [hid, List.map_id]
  exact intercalate_split p.text.toList

theorem slash_not_mem_of_mem_segments {p : Path} {s : String} (h : s ∈ p.segments) :
    '/' ∉ s.toList := by
  obtain ⟨cs, hcs, rfl⟩ := List.mem_map.mp h
  rw [String.toList_ofList]
  exact slash_not_mem_of_mem_split hcs

theorem segments_ofReversed {ss : List String} (hne : ss ≠ []) (h : ∀ s ∈ ss, '/' ∉ s.toList) :
    (ofReversed ss).segments = ss.reverse := by
  have hsplit : split (['/'].intercalate (ss.reverse.map String.toList))
      = ss.reverse.map String.toList := by
    refine split_intercalate (by simpa using hne) fun cs hcs => ?_
    obtain ⟨s, hs, rfl⟩ := List.mem_map.mp hcs
    exact h s (List.mem_reverse.mp hs)
  have hid : (String.ofList ∘ String.toList) = id := funext fun _ => String.ofList_toList
  show (split ("/".intercalate ss.reverse).toList).map String.ofList = _
  rw [String.toList_intercalate]
  show (split (['/'].intercalate _)).map String.ofList = _
  rw [hsplit, List.map_map, hid, List.map_id]

theorem intercalate_append {ss ts : List String} (hs : ss ≠ []) (ht : ts ≠ []) :
    "/".intercalate (ss ++ ts) = "/".intercalate ss ++ ("/" ++ "/".intercalate ts) := by
  obtain ⟨t, ts, rfl⟩ := List.exists_cons_of_ne_nil ht
  induction ss with
  | nil => exact absurd rfl hs
  | cons s ss ih =>
    rw [← String.toList_inj] at *
    cases ss with
    | nil => simp [String.toList_intercalate]
    | cons s' ss =>
      have ih := ih (List.cons_ne_nil _ _)
      simp only [String.toList_intercalate, String.toList_append, List.map_append, List.map_cons,
        List.cons_append, List.intercalate_cons_cons] at ih ⊢
      rw [ih]
      simp

/-! ### names -/

/-- the segments that name something or are dots -/
def names (p : Path) : List String := p.segments.filter (!·.isEmpty)

theorem mem_names {p : Path} {s : String} : s ∈ p.names ↔ s ∈ p.segments ∧ s ≠ "" := by
  simp [names]

/-- a suffix goes to the last name, or is one if the path ends in a slash -/
theorem names_withSuffix (p : Path) : ∃ init last, p.names = init ++ [last].filter (!·.isEmpty) ∧
    (last = "" → p.text = "" ∨ p.endsInSlash = true) ∧
    ∀ suffix : String, suffix ≠ "" → '/' ∉ suffix.toList →
      (p.withSuffix suffix).names = init ++ [last ++ suffix] := by
  obtain ⟨init, last, h1, hempty, h2⟩ := split_append p.text.toList
  refine ⟨(init.map String.ofList).filter (!·.isEmpty), String.ofList last, ?_, fun h => ?_,
    fun suffix hne hs => ?_⟩
  · rw [names, segments, h1, List.map_append, List.filter_append]
    rfl
  · have hlast : last = [] := by
      rw [← String.toList_ofList (l := last), h]
      rfl
    rcases hempty hlast with h | h
    · exact .inl (String.toList_eq_nil_iff.mp h)
    · exact .inr (decide_eq_true h)
  · have hlast : (String.ofList last ++ suffix).isEmpty = false := by
      rw [Bool.eq_false_iff, Ne, String.isEmpty_iff, ← String.toList_eq_nil_iff,
        String.toList_append, List.append_eq_nil_iff, String.toList_eq_nil_iff]
      exact fun h => hne (String.toList_eq_nil_iff.mp h.2)
    have hofList : String.ofList (last ++ suffix.toList) = String.ofList last ++ suffix := by
      rw [← String.toList_inj]
      simp
    rw [names, segments, withSuffix, String.toList_append, h2 _ hs, List.map_append,
      List.filter_append, List.map_singleton, hofList, List.filter_cons_of_pos (by simp [hlast])]
    rfl

theorem withSuffix_empty (p : Path) : p.withSuffix "" = p := by
  rw [withSuffix, String.append_empty]

theorem isRooted_withSuffix (p : Path) {suffix : String} (hs : '/' ∉ suffix.toList) :
    (p.withSuffix suffix).isRooted = p.isRooted := by
  rw [isRooted, isRooted, withSuffix, String.toList_append]
  cases p.text.toList with
  | nil =>
    cases hc : suffix.toList with
    | nil => rfl
    | cons c cs =>
      have hne : c ≠ '/' := fun h => hs (by simp [hc, h])
      simp [hne]
  | cons c cs => rfl

/-! ### directories above -/

/-- `q` is the text of a directory on the way to `p`. -/
structure Above (q p : Path) : Prop where
  rooted : q.isRooted = p.isRooted
  names : ∃ rest, rest ≠ [] ∧ p.names = q.names ++ rest
  text : ∃ rest, p.text = q.text ++ rest

/-- `q` is the text of a directory on the way to `p`, or that of `p` itself up to slashes. -/
structure Along (q p : Path) : Prop where
  rooted : q.isRooted = p.isRooted
  names : ∃ rest, p.names = q.names ++ rest
  text : ∃ rest, p.text = q.text ++ rest

theorem along_refl (p : Path) : Along p p :=
  ⟨rfl, ⟨[], (List.append_nil _).symm⟩, ⟨"", (String.append_empty).symm⟩⟩

theorem Along.trans {q r p : Path} (h1 : Along q r) (h2 : Along r p) : Along q p := by
  obtain ⟨xs, hr⟩ := h1.names
  obtain ⟨ys, hp⟩ := h2.names
  obtain ⟨s, hs⟩ := h1.text
  obtain ⟨t, ht⟩ := h2.text
  refine ⟨h1.rooted.trans h2.rooted, ⟨xs ++ ys, ?_⟩, ⟨s ++ t, ?_⟩⟩
  · rw [hp, hr, List.append_assoc]
  · rw [ht, hs, String.append_assoc]

theorem Above.along {q p : Path} (h : Above q p) : Along q p := by
  obtain ⟨rest, -, hnames⟩ := h.names
  exact ⟨h.rooted, ⟨rest, hnames⟩, h.text⟩

theorem Above.trans {q r p : Path} (h1 : Above q r) (h2 : Above r p) : Above q p := by
  obtain ⟨xs, hxs, hr⟩ := h1.names
  obtain ⟨ys, -, hp⟩ := h2.names
  obtain ⟨s, hs⟩ := h1.text
  obtain ⟨t, ht⟩ := h2.text
  refine ⟨h1.rooted.trans h2.rooted, ⟨xs ++ ys, by simp [hxs], ?_⟩, ⟨s ++ t, ?_⟩⟩
  · rw [hp, hr, List.append_assoc]
  · rw [ht, hs, String.append_assoc]

theorem Above.withSuffix {q p : Path} (h : Above q p) {suffix : String} (hne : suffix ≠ "")
    (hs : '/' ∉ suffix.toList) : Above q (p.withSuffix suffix) := by
  obtain ⟨init, last, hp, -, hsuffix⟩ := p.names_withSuffix
  obtain ⟨rest, hrest, hnames⟩ := h.names
  obtain ⟨t, ht⟩ := h.text
  refine ⟨?_, ?_, ⟨t ++ suffix, ?_⟩⟩
  · rw [h.rooted, p.isRooted_withSuffix hs]
  · have hlength : q.names.length ≤ init.length := by
      have hfilter := List.length_filter_le (!·.isEmpty) [last]
      have hpos := List.length_pos_iff.mpr hrest
      have := congrArg List.length (hnames.symm.trans hp)
      simp only [List.length_append, List.length_singleton] at this hfilter
      omega
    obtain ⟨mid, rfl⟩ : q.names <+: init :=
      List.prefix_of_prefix_length_le ⟨rest, hnames.symm⟩ ⟨_, hp.symm⟩ hlength
    exact ⟨mid ++ [last ++ suffix], by simp, by rw [hsuffix suffix hne hs, List.append_assoc]⟩
  · rw [Path.withSuffix, ht, String.append_assoc]

theorem trim_suffix (ss : List String) : trim ss <:+ ss := by
  fun_induction trim ss with
  | case1 => exact List.suffix_rfl
  | case2 => exact List.nil_suffix
  | case3 => exact List.suffix_rfl
  | case4 s ss _ _ ih => exact ih.trans (List.suffix_cons s ss)
  | case5 => exact List.suffix_rfl

theorem ne_empty_of_trim {ss ts : List String} {t : String} (h : trim ss = t :: ts) : t ≠ "" := by
  fun_induction trim ss with
  | case1 => exact absurd h (by simp)
  | case2 => exact absurd h (by simp)
  | case3 s hs =>
    obtain ⟨rfl, -⟩ := List.cons.inj h
    simpa using hs
  | case4 s ss _ _ ih => exact ih h
  | case5 s ss _ hs =>
    obtain ⟨rfl, -⟩ := List.cons.inj h
    simp_all

theorem mem_above {rooted : Bool} {ss : List String} {q : Path} (h : q ∈ above rooted ss) :
    q = ⟨if rooted then "/" else ""⟩ ∨
      ∃ s ts, (s :: ts) <:+ ss ∧ s ≠ "" ∧ q = ofReversed (s :: ts) := by
  fun_induction above rooted ss with
  | case1 => exact .inl (List.mem_singleton.mp h)
  | case2 s ss hs ih =>
    rcases ih h with h | ⟨t, ts, hts, ht, rfl⟩
    · exact .inl h
    · exact .inr ⟨t, ts, hts.trans (List.suffix_cons s ss), ht, rfl⟩
  | case3 s ss hs ih =>
    rcases List.mem_cons.mp h with rfl | h
    · exact .inr ⟨s, ss, List.suffix_rfl, by rintro rfl; exact hs rfl, rfl⟩
    · rcases ih h with h | ⟨t, ts, hts, ht, rfl⟩
      · exact .inl h
      · exact .inr ⟨t, ts, hts.trans (List.suffix_cons s ss), ht, rfl⟩

theorem along_start (p : Path) : Along ⟨if p.isRooted then "/" else ""⟩ p := by
  cases hroot : p.isRooted with
  | false => exact ⟨hroot.symm, ⟨p.names, rfl⟩, ⟨p.text, by simp⟩⟩
  | true =>
    obtain ⟨cs, hcs⟩ : ∃ cs, p.text.toList = '/' :: cs := by
      rw [isRooted, decide_eq_true_eq] at hroot
      exact List.head?_eq_some_iff.mp hroot
    refine ⟨hroot.symm, ⟨p.names, rfl⟩, ⟨String.ofList cs, ?_⟩⟩
    rw [← String.toList_inj, hcs]
    simp

theorem above_start {p : Path} (h : p.names ≠ []) : Above ⟨if p.isRooted then "/" else ""⟩ p := by
  refine ⟨p.along_start.rooted, ⟨p.names, h, ?_⟩, p.along_start.text⟩
  cases p.isRooted <;> rfl

theorem segments_above {p : Path} {ts rest : List String} {s : String}
    (h : p.segments = (s :: ts).reverse ++ rest) :
    (ofReversed (s :: ts)).segments = (s :: ts).reverse := by
  refine segments_ofReversed (List.cons_ne_nil _ _) fun x hx => ?_
  refine slash_not_mem_of_mem_segments (p := p) ?_
  rw [h]
  exact List.mem_append_left _ (List.mem_reverse.mpr hx)

theorem names_above {p : Path} {ts rest : List String} {s : String}
    (h : p.segments = (s :: ts).reverse ++ rest) :
    p.names = (ofReversed (s :: ts)).names ++ rest.filter (!·.isEmpty) := by
  rw [names, names, segments_above h, h, List.filter_append]

theorem along_ofReversed {p : Path} {ts rest : List String} {s : String} (hs : s ≠ "")
    (h : p.segments = (s :: ts).reverse ++ rest) : Along (ofReversed (s :: ts)) p := by
  have hsegments := segments_above h
  obtain ⟨t, htext⟩ : ∃ t, p.text = (ofReversed (s :: ts)).text ++ t := by
    by_cases hrest : rest = []
    · refine ⟨"", ?_⟩
      rw [← p.intercalate_segments, h, hrest, List.append_nil, String.append_empty]
      rfl
    · refine ⟨"/" ++ "/".intercalate rest, ?_⟩
      rw [← p.intercalate_segments, h, intercalate_append (by simp) hrest]
      rfl
  have hfirst : (ofReversed (s :: ts)).text.toList ≠ [] := by
    intro hempty
    have := hsegments
    rw [segments, hempty] at this
    have : s ∈ [""] := by
      rw [show [""] = (split []).map String.ofList from rfl, this]
      simp
    exact hs (List.mem_singleton.mp this)
  refine ⟨?_, ⟨rest.filter (!·.isEmpty), names_above h⟩, ⟨t, htext⟩⟩
  rw [isRooted, isRooted, htext, String.toList_append]
  obtain ⟨c, cs, hc⟩ := List.exists_cons_of_ne_nil hfirst
  rw [hc]
  rfl

theorem above_ofReversed {p : Path} {ts rest : List String} {s : String} (hs : s ≠ "")
    (hrest : ∃ t ∈ rest, t ≠ "") (h : p.segments = (s :: ts).reverse ++ rest) :
    Above (ofReversed (s :: ts)) p := by
  obtain ⟨t, ht, hne⟩ := hrest
  have halong := along_ofReversed hs h
  refine ⟨halong.rooted, ⟨rest.filter (!·.isEmpty), ?_, names_above h⟩, halong.text⟩
  exact List.ne_nil_of_mem (List.mem_filter.mpr ⟨ht, by simpa using hne⟩)

/-- An ancestor other than the path leaves out the last segment that means something. -/
theorem mem_ancestors_tail {p q : Path} (h : q ∈ p.ancestors.tail) :
    ∃ t ss, trim p.segments.reverse = t :: ss ∧
      (q = ⟨if p.isRooted then "/" else ""⟩ ∨ ∃ s ts rest, s ≠ "" ∧ t ∈ rest ∧
        q = ofReversed (s :: ts) ∧ p.segments = (s :: ts).reverse ++ rest) := by
  rw [ancestors, List.tail_cons] at h
  split at h
  case h_2 => exact absurd h List.not_mem_nil
  case h_1 t ss htrim =>
    obtain ⟨pre, hpre⟩ := htrim ▸ trim_suffix p.segments.reverse
    refine ⟨t, ss, htrim, ?_⟩
    rcases mem_above h with rfl | ⟨s, ts, ⟨mid, rfl⟩, hs, rfl⟩
    · exact .inl rfl
    · refine .inr ⟨s, ts, mid.reverse ++ t :: pre.reverse, hs, by simp, rfl, ?_⟩
      rw [← List.reverse_inj, ← hpre]
      simp

theorem mem_names_of_trim {p : Path} {t : String} {ss : List String}
    (h : trim p.segments.reverse = t :: ss) : t ∈ p.names := by
  have hmem := (h ▸ trim_suffix p.segments.reverse).subset List.mem_cons_self
  exact mem_names.mpr ⟨List.mem_reverse.mp hmem, ne_empty_of_trim h⟩

/-- all ancestors of a path but the path itself are above it -/
theorem above_of_mem_ancestors {p q : Path} (h : q ∈ p.ancestors.tail) : Above q p := by
  obtain ⟨t, ss, htrim, rfl | ⟨s, ts, rest, hs, ht, rfl, hsegments⟩⟩ := mem_ancestors_tail h
  · exact above_start (List.ne_nil_of_mem (mem_names_of_trim htrim))
  · exact above_ofReversed hs ⟨t, ht, ne_empty_of_trim htrim⟩ hsegments

theorem along_of_mem_ancestors {p q : Path} (h : q ∈ p.ancestors) : Along q p := by
  have h : q ∈ p :: p.ancestors.tail := h
  rcases List.mem_cons.mp h with rfl | h
  · exact along_refl q
  · exact (above_of_mem_ancestors h).along

/-! ### the name of a file -/

theorem fileName?_eq_some {p : Path} {file : String} (h : p.fileName? = some file) :
    (∃ ss, trim p.segments.reverse = file :: ss) ∧ file ≠ "." ∧ file ≠ ".." := by
  unfold fileName? at h
  split at h
  · rename_i s ss htrim
    split at h
    · exact absurd h (by simp)
    · rename_i hdots
      obtain rfl := Option.some.inj h
      simp only [Bool.or_eq_true, beq_iff_eq, not_or] at hdots
      exact ⟨⟨ss, htrim⟩, hdots⟩
  · exact absurd h (by simp)

/-- the directories above leave out the name of the file -/
theorem names_of_mem_ancestors {p q : Path} {file : String} (hf : p.fileName? = some file)
    (h : q ∈ p.ancestors.tail) : ∃ rest, file ∈ rest ∧ p.names = q.names ++ rest := by
  obtain ⟨⟨ss, hfile⟩, -, -⟩ := fileName?_eq_some hf
  obtain ⟨t, ss', htrim, hq⟩ := mem_ancestors_tail h
  obtain ⟨rfl, -⟩ := List.cons.inj (hfile.symm.trans htrim)
  rcases hq with rfl | ⟨s, ts, rest, -, ht, rfl, hsegments⟩
  · refine ⟨p.names, mem_names_of_trim htrim, ?_⟩
    cases p.isRooted <;> rfl
  · refine ⟨rest.filter (!·.isEmpty), ?_, names_above hsegments⟩
    exact List.mem_filter.mpr ⟨ht, by simpa using ne_empty_of_trim htrim⟩

end Path

end AnfWasm
