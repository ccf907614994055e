import AnfWasm.Store.Files
import AnfWasm.Proofs.Store.Path

/-!
# What is where in the files

`stat?` is what stands under a path, and `spot?` is the place of the file that a path names, which
may be missing.  Each operation is one change of one place (`createNew_ok`, `write_ok`,
`removeFile_ok`, `makeDir_ok`).

Where a path leads depends on directories only, so it stays the same as long as these are kept
(`Keeps`).  In files where every entry stands in a directory (`Closed`) it depends on the last place
only, as long as the path has no `..`.
-/

namespace AnfWasm

namespace Place

@[simp] theorem base_child (p : Place) (s : String) : (p.child s).base = p.base := rfl

@[simp] theorem names_child (p : Place) (s : String) : (p.child s).names = p.names ++ [s] := rfl

theorem child_inj {p q : Place} {s t : String} (h : p.child s = q.child t) : p = q ∧ s = t := by
  obtain ⟨b, ss⟩ := p
  obtain ⟨c, ts⟩ := q
  simpa [child, and_assoc] using h

end Place

namespace Files

variable {fs fs' : Files} {place other : Place} {e : Entry} {p : Path}

/-! ### single places -/

theorem get?_of_names_eq_nil (h : place.names = []) : fs.get? place = some .dir := by
  rw [get?, h]
  rfl

theorem get?_of_names_ne_nil (h : place.names ≠ []) :
    fs.get? place = fs.entries.lookup place := by
  rw [get?, if_neg (by simpa using h)]

theorem lookup_filter_self (entries : List (Place × Entry)) (place : Place) :
    (entries.filter (·.1 != place)).lookup place = none := by
  rw [List.lookup_eq_none_iff]
  intro x hx
  exact bne_iff_ne.mpr (Ne.symm (bne_iff_ne.mp (List.mem_filter.mp hx).2))

theorem lookup_filter_of_ne (entries : List (Place × Entry)) (h : other ≠ place) :
    (entries.filter (·.1 != place)).lookup other = entries.lookup other := by
  induction entries with
  | nil => rfl
  | cons x entries ih =>
    obtain ⟨y, e⟩ := x
    by_cases hy : y = place
    · have hne : (other == y) = false := by simpa [hy] using h
      rw [List.filter_cons_of_neg (by simpa using hy), ih, List.lookup_cons, hne]
    · rw [List.filter_cons_of_pos (by simpa using hy), List.lookup_cons, List.lookup_cons, ih]

theorem get?_erase_self (fs : Files) (h : place.names ≠ []) :
    (fs.erase place).get? place = none := by
  rw [get?_of_names_ne_nil h]
  exact lookup_filter_self fs.entries place

theorem get?_erase_of_ne (fs : Files) (h : other ≠ place) :
    (fs.erase place).get? other = fs.get? other := by
  by_cases hnames : other.names = []
  · rw [get?_of_names_eq_nil hnames, get?_of_names_eq_nil hnames]
  · rw [get?_of_names_ne_nil hnames, get?_of_names_ne_nil hnames]
    exact lookup_filter_of_ne fs.entries h

theorem dir_erase (h : fs.get? place ≠ some .dir) (other : Place)
    (hd : fs.get? other = some .dir) : (fs.erase place).get? other = some .dir := by
  rw [fs.get?_erase_of_ne, hd]
  rintro rfl
  exact h hd

theorem get?_insert_self (fs : Files) (e : Entry) (h : place.names ≠ []) :
    (fs.insert place e).get? place = some e := by
  rw [get?_of_names_ne_nil h]
  exact List.lookup_cons_self

theorem get?_insert_of_ne (fs : Files) (e : Entry) (h : other ≠ place) :
    (fs.insert place e).get? other = fs.get? other := by
  rw [← fs.get?_erase_of_ne h]
  by_cases hnames : other.names = []
  · rw [get?_of_names_eq_nil hnames, get?_of_names_eq_nil hnames]
  · rw [get?_of_names_ne_nil hnames, get?_of_names_ne_nil hnames, insert, List.lookup_cons,
      beq_eq_false_iff_ne.mpr h]

/-! ### what paths name -/

/-- the place of the file that a path names, whether it is there or not -/
def spot? (fs : Files) (p : Path) : Option Place :=
  match fs.find p with
  | .ok (.named dir name false) => if tooLong name then none else some (dir.child name)
  | _ => none

/-- What stands under a path.  A file does not stand under a path that goes on after its name. -/
def stat? (fs : Files) (p : Path) : Option Entry :=
  match fs.find p with
  | .ok (.stands _) => some .dir
  | .ok (.named dir name slash) =>
    if tooLong name then none
    else (fs.get? (dir.child name)).filter fun e => e = .dir ∨ ¬slash
  | .error _ => none

theorem look_ok {dir : Place} {name : String} {o : Option Entry} :
    fs.look dir name = .ok o ↔ tooLong name = false ∧ fs.get? (dir.child name) = o := by
  unfold look
  cases tooLong name <;> simp

theorem look_error {dir : Place} {name : String} {err : FileError}
    (h : fs.look dir name = .error err) : tooLong name = true := by
  unfold look at h
  cases hlong : tooLong name
  · simp [hlong] at h
  · rfl

theorem isDir_iff : fs.isDir p = true ↔ fs.stat? p = some .dir := by
  unfold isDir stat?
  rcases fs.find p with err | (dir | ⟨dir, name, slash⟩)
  · simp
  · simp
  · rcases hlook : fs.look dir name with err | o
    · simp [hlook, look_error hlook]
    · obtain ⟨hlong, hget⟩ := look_ok.mp hlook
      rcases o with _ | (_ | content) <;> simp [hlook, hlong, hget, Option.filter]

theorem read_eq_ok_iff {content : Bytes} :
    fs.read p = .ok content ↔ fs.stat? p = some (.file content) := by
  unfold read stat?
  rcases fs.find p with err | (dir | ⟨dir, name, slash⟩)
  · simp [bind, Except.bind]
  · simp [bind, Except.bind]
  · rcases hlook : fs.look dir name with err | o
    · simp [bind, Except.bind, hlook, look_error hlook]
    · obtain ⟨hlong, hget⟩ := look_ok.mp hlook
      rcases o with _ | (_ | content') <;> cases slash <;>
        simp [bind, Except.bind, hlook, hlong, hget, Option.filter]

theorem spot?_eq_some : fs.spot? p = some place ↔
    ∃ dir name, fs.find p = .ok (.named dir name false) ∧ tooLong name = false ∧
      dir.child name = place := by
  constructor
  · intro h
    unfold spot? at h
    split at h
    · rename_i dir name hfind
      split at h
      · exact absurd h (by simp)
      · exact ⟨dir, name, hfind, by simp_all, Option.some.inj h⟩
    · exact absurd h (by simp)
  · rintro ⟨dir, name, hfind, hlong, rfl⟩
    simp [spot?, hfind, hlong]

theorem stat?_of_spot? (h : fs.spot? p = some place) : fs.stat? p = fs.get? place := by
  obtain ⟨dir, name, hfind, hlong, rfl⟩ := spot?_eq_some.mp h
  cases hget : fs.get? (dir.child name) <;> simp [stat?, hfind, hlong, hget]

theorem names_ne_nil_of_spot? (h : fs.spot? p = some place) : place.names ≠ [] := by
  obtain ⟨dir, name, -, -, rfl⟩ := spot?_eq_some.mp h
  simp

/-! ### operations -/

theorem createNew_ok (h : fs.createNew p = .ok fs') : ∃ place, fs.spot? p = some place ∧
    fs.get? place = none ∧ fs' = fs.insert place (.file []) := by
  unfold createNew at h
  rcases hfind : fs.find p with err | (dir | ⟨dir, name, _ | _⟩) <;>
    simp only [hfind, bind, Except.bind] at h
  · exact absurd h (by simp)
  · exact absurd h (by simp)
  · rcases hlook : fs.look dir name with err | (_ | e) <;> simp [hlook] at h
    obtain ⟨hlong, hget⟩ := look_ok.mp hlook
    exact ⟨_, spot?_eq_some.mpr ⟨dir, name, hfind, hlong, rfl⟩, hget, h.symm⟩
  · exact absurd h (by simp)

theorem createNew_of_spot? (h : fs.spot? p = some place) (hget : fs.get? place = none) :
    fs.createNew p = .ok (fs.insert place (.file [])) := by
  obtain ⟨dir, name, hfind, hlong, rfl⟩ := spot?_eq_some.mp h
  simp [createNew, hfind, look_ok.mpr ⟨hlong, hget⟩, bind, Except.bind]

theorem createNew_of_mem (h : fs.spot? p = some place) (hget : fs.get? place = some e) :
    fs.createNew p = .error .alreadyExists := by
  obtain ⟨dir, name, hfind, hlong, rfl⟩ := spot?_eq_some.mp h
  simp [createNew, hfind, look_ok.mpr ⟨hlong, hget⟩, bind, Except.bind]

theorem walk_ne_alreadyExists (fs : Files) (slash : Bool) (place : Place) (ss : List String) :
    fs.walk slash place ss ≠ .error .alreadyExists := by
  fun_induction fs.walk slash place ss <;> simp_all

/-- a file that is not created because there is something -/
theorem stat?_of_createNew (h : fs.createNew p = .error .alreadyExists) :
    (fs.stat? p).isSome := by
  unfold createNew at h
  rcases hfind : fs.find p with err | (dir | ⟨dir, name, _ | _⟩) <;>
    simp only [hfind, bind, Except.bind] at h
  · obtain rfl := Except.error.inj h
    unfold find at hfind
    split at hfind
    · exact absurd hfind (by simp)
    · split at hfind
      · exact absurd hfind (by simp)
      · split at hfind
        · exact absurd hfind (by simp)
        · exact absurd hfind (fs.walk_ne_alreadyExists _ _ _)
  · simp [stat?, hfind]
  · rcases hlook : fs.look dir name with err | (_ | e) <;> simp [hlook] at h
    · obtain rfl := h
      exact absurd hlook (by unfold look; split <;> simp)
    · obtain ⟨hlong, hget⟩ := look_ok.mp hlook
      rw [stat?_of_spot? (spot?_eq_some.mpr ⟨dir, name, hfind, hlong, rfl⟩), hget]
      rfl
  · exact absurd h (by simp)

theorem write_ok {content : Bytes} (h : fs.write p content = .ok fs') :
    ∃ place, fs.spot? p = some place ∧ fs.get? place ≠ some .dir ∧
      fs' = fs.insert place (.file content) := by
  unfold write at h
  rcases hfind : fs.find p with err | (dir | ⟨dir, name, _ | _⟩) <;>
    simp only [hfind, bind, Except.bind] at h
  · exact absurd h (by simp)
  · exact absurd h (by simp)
  · rcases hlook : fs.look dir name with err | (_ | (_ | content)) <;> simp [hlook] at h
    all_goals
      obtain ⟨hlong, hget⟩ := look_ok.mp hlook
      exact ⟨_, spot?_eq_some.mpr ⟨dir, name, hfind, hlong, rfl⟩, by simp [hget], h.symm⟩
  · exact absurd h (by simp)

theorem removeFile_ok (h : fs.removeFile p = .ok fs') :
    ∃ place content, fs.spot? p = some place ∧ fs.get? place = some (.file content) ∧
      fs' = fs.erase place := by
  unfold removeFile at h
  rcases hfind : fs.find p with err | (dir | ⟨dir, name, _ | _⟩) <;>
    simp only [hfind, bind, Except.bind] at h
  · exact absurd h (by simp)
  · exact absurd h (by simp)
  all_goals rcases hlook : fs.look dir name with err | (_ | (_ | content)) <;> simp [hlook] at h
  obtain ⟨hlong, hget⟩ := look_ok.mp hlook
  exact ⟨_, content, spot?_eq_some.mpr ⟨dir, name, hfind, hlong, rfl⟩, hget, h.symm⟩

theorem removeFile_of_spot? {content : Bytes} (h : fs.spot? p = some place)
    (hget : fs.get? place = some (.file content)) : fs.removeFile p = .ok (fs.erase place) := by
  obtain ⟨dir, name, hfind, hlong, rfl⟩ := spot?_eq_some.mp h
  simp [removeFile, hfind, look_ok.mpr ⟨hlong, hget⟩, bind, Except.bind]

theorem makeDir_ok (h : fs.makeDir p = .ok fs') : ∃ dir name slash,
    fs.find p = .ok (.named dir name slash) ∧ fs.get? (dir.child name) = none ∧
      fs' = fs.insert (dir.child name) .dir := by
  unfold makeDir at h
  rcases hfind : fs.find p with err | (dir | ⟨dir, name, slash⟩) <;>
    simp only [hfind, bind, Except.bind] at h
  · exact absurd h (by simp)
  · exact absurd h (by simp)
  · rcases hlook : fs.look dir name with err | (_ | e) <;> simp [hlook] at h
    exact ⟨dir, name, slash, rfl, (look_ok.mp hlook).2, h.symm⟩

/-! ### walks -/

/-- The walks that come to an end, with one rule for each way of going on. -/
inductive Leads (fs : Files) (slash : Bool) : Place → List String → Goal → Prop where
  | here (place : Place) : Leads fs slash place [] (.stands place)
  | dot {place : Place} {ss : List String} {g : Goal} (rest : Leads fs slash place ss g) :
    Leads fs slash place ("." :: ss) g
  | dots {place : Place} {ss : List String} {g : Goal} (rest : Leads fs slash place.up ss g) :
    Leads fs slash place (".." :: ss) g
  | name (place : Place) {s : String} (h1 : s ≠ ".") (h2 : s ≠ "..") :
    Leads fs slash place [s] (.named place s slash)
  | into {place : Place} {s : String} {ss : List String} {g : Goal} (h1 : s ≠ ".") (h2 : s ≠ "..")
    (short : tooLong s = false) (dir : fs.get? (place.child s) = some .dir) (more : ss ≠ [])
    (rest : Leads fs slash (place.child s) ss g) : Leads fs slash place (s :: ss) g

variable {slash : Bool} {ss : List String} {g : Goal}

theorem leads_of_walk (h : fs.walk slash place ss = .ok g) : fs.Leads slash place ss g := by
  fun_induction fs.walk slash place ss with
  | case1 place =>
    obtain rfl := Except.ok.inj h
    exact .here place
  | case2 place s hs =>
    obtain rfl := Except.ok.inj h
    obtain rfl := beq_iff_eq.mp hs
    exact .dot (.here place)
  | case3 place s _ hs =>
    obtain rfl := Except.ok.inj h
    obtain rfl := beq_iff_eq.mp hs
    exact .dots (.here place.up)
  | case4 place s h1 h2 =>
    obtain rfl := Except.ok.inj h
    exact .name place (by simpa using h1) (by simpa using h2)
  | case5 place s ss _ hs ih =>
    obtain rfl := beq_iff_eq.mp hs
    exact .dot (ih h)
  | case6 place s ss _ _ hs ih =>
    obtain rfl := beq_iff_eq.mp hs
    exact .dots (ih h)
  | case7 => exact absurd h (by simp)
  | case8 place s ss more h1 h2 hlong hdir ih =>
    exact .into (by simpa using h1) (by simpa using h2) (by simpa using hlong) hdir more (ih h)
  | case9 => exact absurd h (by simp)
  | case10 => exact absurd h (by simp)

theorem Leads.walk (h : fs.Leads slash place ss g) : fs.walk slash place ss = .ok g := by
  induction h with
  | here place => rfl
  | @dot place ss g _ ih => cases ss <;> simpa [Files.walk] using ih
  | @dots place ss g _ ih => cases ss <;> simpa [Files.walk] using ih
  | name place h1 h2 => simp [Files.walk, h1, h2]
  | @into place s ss g h1 h2 short dir more _ ih =>
    obtain ⟨t, ss, rfl⟩ := List.exists_cons_of_ne_nil more
    simpa [Files.walk, h1, h2, short, dir] using ih

theorem Leads.mono (hdirs : ∀ place, fs.get? place = some .dir → fs'.get? place = some .dir)
    (h : fs.Leads slash place ss g) : fs'.Leads slash place ss g := by
  induction h with
  | here place => exact .here place
  | dot _ ih => exact .dot ih
  | dots _ ih => exact .dots ih
  | name place h1 h2 => exact .name place h1 h2
  | into h1 h2 short dir more _ ih => exact .into h1 h2 short (hdirs _ dir) more ih

/-- the first step of a walk that goes on after it -/
theorem Leads.first {s : String} (h : fs.Leads slash place (s :: ss) g) (hss : ss ≠ []) :
    (s = "." ∧ fs.Leads slash place ss g) ∨ (s = ".." ∧ fs.Leads slash place.up ss g) ∨
      (s ≠ "." ∧ s ≠ ".." ∧ tooLong s = false ∧ fs.get? (place.child s) = some .dir ∧
        fs.Leads slash (place.child s) ss g) := by
  cases h with
  | dot rest => exact .inl ⟨rfl, rest⟩
  | dots rest => exact .inr (.inl ⟨rfl, rest⟩)
  | name => exact absurd rfl hss
  | into h1 h2 short dir _ rest => exact .inr (.inr ⟨h1, h2, short, dir, rest⟩)

/-- a walk that ends in a name other than dots ends there -/
theorem Leads.last {s : String} (h : fs.Leads slash place (ss ++ [s]) g) (h1 : s ≠ ".")
    (h2 : s ≠ "..") : ∃ dir, g = .named dir s slash := by
  induction ss generalizing place with
  | nil =>
    cases h with
    | dot => exact absurd rfl h1
    | dots => exact absurd rfl h2
    | name place => exact ⟨place, rfl⟩
    | into _ _ _ _ more => exact absurd rfl more
  | cons t ss ih =>
    rcases Leads.first h (by simp) with ⟨_, rest⟩ | ⟨_, rest⟩ | ⟨_, _, _, _, rest⟩
    all_goals exact ih rest

/-- a walk to a name ends in that name -/
theorem Leads.ends_in {dir : Place} {name s : String} {sl : Bool}
    (h : fs.Leads slash place (ss ++ [s]) (.named dir name sl)) :
    s ≠ "." ∧ s ≠ ".." ∧ name = s ∧ sl = slash := by
  induction ss generalizing place with
  | nil =>
    cases h with
    | dot rest => nomatch rest
    | dots rest => nomatch rest
    | name _ h1 h2 => exact ⟨h1, h2, rfl, rfl⟩
    | into _ _ _ _ more => exact absurd rfl more
  | cons t ss ih =>
    rcases Leads.first h (by simp) with ⟨_, rest⟩ | ⟨_, rest⟩ | ⟨_, _, _, _, rest⟩
    all_goals exact ih rest

/-- the way to another name in the same directory -/
theorem Leads.beside {dir : Place} {name s t : String} {sl : Bool}
    (h : fs.Leads slash place (ss ++ [s]) (.named dir name sl)) (h1 : t ≠ ".") (h2 : t ≠ "..")
    (slash' : Bool) : fs.Leads slash' place (ss ++ [t]) (.named dir t slash') := by
  induction ss generalizing place with
  | nil =>
    cases h with
    | dot rest => nomatch rest
    | dots rest => nomatch rest
    | name => exact .name _ h1 h2
    | into _ _ _ _ more => exact absurd rfl more
  | cons u ss ih =>
    rcases Leads.first h (by simp) with ⟨rfl, rest⟩ | ⟨rfl, rest⟩ | ⟨hu1, hu2, short, dir, rest⟩
    · exact .dot (ih rest)
    · exact .dots (ih rest)
    · exact .into hu1 hu2 short dir (by simp) (ih rest)

/-- a goal that is a directory -/
def IsDir (fs : Files) : Goal → Prop
  | .stands _ => True
  | .named dir name _ => tooLong name = false ∧ fs.get? (dir.child name) = some .dir

/-- on the way to somewhere else there are only directories -/
theorem Leads.append {ts : List String} (h : fs.Leads slash place (ss ++ ts) g) (hts : ts ≠ [])
    (slash' : Bool) : ∃ g', fs.Leads slash' place ss g' ∧ fs.IsDir g' := by
  induction ss generalizing place with
  | nil => exact ⟨_, .here place, trivial⟩
  | cons s ss ih =>
    rcases Leads.first h (by simp [hts]) with ⟨rfl, rest⟩ | ⟨rfl, rest⟩ | ⟨h1, h2, short, dir, rest⟩
    · obtain ⟨g', hg', hdir⟩ := ih rest
      exact ⟨g', .dot hg', hdir⟩
    · obtain ⟨g', hg', hdir⟩ := ih rest
      exact ⟨g', .dots hg', hdir⟩
    · cases ss with
      | nil => exact ⟨_, .name place h1 h2, short, dir⟩
      | cons t ss =>
        obtain ⟨g', hg', hdir⟩ := ih rest
        exact ⟨g', .into h1 h2 short dir (List.cons_ne_nil _ _) hg', hdir⟩

/-- a slash at the end makes no difference to directories -/
theorem Leads.with_slash (h : fs.Leads slash place ss g) (hdir : fs.IsDir g) (slash' : Bool) :
    ∃ g', fs.Leads slash' place ss g' ∧ fs.IsDir g' := by
  induction h with
  | here place => exact ⟨_, .here place, trivial⟩
  | dot _ ih =>
    obtain ⟨g', hg', hdir'⟩ := ih hdir
    exact ⟨g', .dot hg', hdir'⟩
  | dots _ ih =>
    obtain ⟨g', hg', hdir'⟩ := ih hdir
    exact ⟨g', .dots hg', hdir'⟩
  | name place h1 h2 => exact ⟨_, .name place h1 h2, hdir⟩
  | into h1 h2 short dir more _ ih =>
    obtain ⟨g', hg', hdir'⟩ := ih hdir
    exact ⟨g', .into h1 h2 short dir more hg', hdir'⟩

/-- without `..` the names are those on the path -/
theorem Leads.spelled {dir : Place} {name : String} {sl : Bool}
    (h : fs.Leads slash place ss (.named dir name sl)) (hs : ".." ∉ ss) :
    ∃ mid, ss.filter (· ≠ ".") = mid ++ [name] ∧ dir = ⟨place.base, place.names ++ mid⟩ := by
  generalize hg : Goal.named dir name sl = g at h
  induction h with
  | here => exact absurd hg (by simp)
  | dot _ ih => simpa using ih (fun h => hs (List.mem_cons_of_mem _ h)) hg
  | dots => exact absurd List.mem_cons_self hs
  | @name place s h1 h2 =>
    obtain ⟨rfl, rfl, rfl⟩ := Goal.named.inj hg
    exact ⟨[], by simp [h1], by simp⟩
  | @into place s ss g h1 _ _ _ _ _ ih =>
    obtain ⟨mid, hmid, hdir⟩ := ih (fun h => hs (List.mem_cons_of_mem _ h)) hg
    refine ⟨s :: mid, ?_, ?_⟩
    · rw [List.filter_cons_of_pos (by simpa using h1), hmid, List.cons_append]
    · rw [hdir, Place.base_child, Place.names_child, List.append_assoc, List.singleton_append]

/-! ### paths -/

def startOf (p : Path) : Place := if p.isRooted then .top else .here

theorem names_startOf (p : Path) : (startOf p).names = [] := by
  unfold startOf
  split <;> rfl

/-- a text that can be given to the file system -/
structure Speakable (p : Path) : Prop where
  nul : '\x00' ∉ p.text.toList
  nonempty : p.text ≠ ""
  short : p.text.utf8ByteSize < maxPath

theorem find_ok : fs.find p = .ok g ↔
    Speakable p ∧ fs.Leads p.endsInSlash (startOf p) p.names g := by
  constructor
  · intro h
    unfold find at h
    split at h
    · exact absurd h (by simp)
    · rename_i hnul
      split at h
      · exact absurd h (by simp)
      · rename_i hempty
        split at h
        · exact absurd h (by simp)
        · rename_i hshort
          exact ⟨⟨by simpa using hnul, by simpa using hempty, Nat.lt_of_not_le hshort⟩,
            leads_of_walk h⟩
  · rintro ⟨⟨hnul, hempty, hshort⟩, h⟩
    rw [find, if_neg (by simpa using hnul), if_neg (by simpa using hempty),
      if_neg (Nat.not_le_of_lt hshort)]
    exact h.walk

theorem Speakable.of_append {q : Path} {t : String} (h : Speakable p) (ht : p.text = q.text ++ t)
    (hne : q.text ≠ "") : Speakable q := by
  refine ⟨?_, hne, ?_⟩
  · have := h.nul
    rw [ht, String.toList_append, List.mem_append, not_or] at this
    exact this.1
  · have := h.short
    rw [ht, String.utf8ByteSize_append] at this
    omega

/-- the directories above a path that leads somewhere are there -/
theorem find_above {q : Path} (hq : Path.Above q p) (hne : q.text ≠ "") (h : fs.find p = .ok g) :
    ∃ g', fs.find q = .ok g' ∧ fs.IsDir g' := by
  obtain ⟨hp, hleads⟩ := find_ok.mp h
  obtain ⟨rest, hrest, hnames⟩ := hq.names
  obtain ⟨t, ht⟩ := hq.text
  rw [hnames, startOf, ← hq.rooted] at hleads
  obtain ⟨g', hg', hdir⟩ := hleads.append hrest q.endsInSlash
  exact ⟨g', find_ok.mpr ⟨hp.of_append ht hne, hg'⟩, hdir⟩

theorem find_along {q : Path} (hq : Path.Along q p) (hne : q.text ≠ "") (h : fs.find p = .ok g)
    (hdir : fs.IsDir g) : ∃ g', fs.find q = .ok g' ∧ fs.IsDir g' := by
  obtain ⟨rest, hnames⟩ := hq.names
  by_cases hrest : rest = []
  · obtain ⟨hp, hleads⟩ := find_ok.mp h
    obtain ⟨t, ht⟩ := hq.text
    rw [hnames, hrest, List.append_nil, startOf, ← hq.rooted] at hleads
    obtain ⟨g', hg', hdir'⟩ := hleads.with_slash hdir q.endsInSlash
    exact ⟨g', find_ok.mpr ⟨hp.of_append ht hne, hg'⟩, hdir'⟩
  · exact find_above ⟨hq.rooted, ⟨rest, hrest, hnames⟩, hq.text⟩ hne h

theorem find_mono (hdirs : ∀ place, fs.get? place = some .dir → fs'.get? place = some .dir)
    (h : fs.find p = .ok g) : fs'.find p = .ok g := by
  obtain ⟨hp, hleads⟩ := find_ok.mp h
  exact find_ok.mpr ⟨hp, hleads.mono hdirs⟩

theorem spot?_mono (hdirs : ∀ place, fs.get? place = some .dir → fs'.get? place = some .dir)
    (h : fs.spot? p = some place) : fs'.spot? p = some place := by
  obtain ⟨dir, name, hfind, hlong, hplace⟩ := spot?_eq_some.mp h
  exact spot?_eq_some.mpr ⟨dir, name, find_mono hdirs hfind, hlong, hplace⟩

/-- what stands under a path that ends in a name stands at the place of a file -/
theorem spot?_of_stat? {init : List String} {x : String} {e : Entry}
    (hnames : p.names = init ++ [x]) (h1 : x ≠ ".") (h2 : x ≠ "..")
    (hslash : p.endsInSlash = false) (h : fs.stat? p = some e) :
    ∃ place, fs.spot? p = some place ∧ fs.get? place = some e := by
  cases hfind : fs.find p with
  | error err => simp [stat?, hfind] at h
  | ok g =>
    have hleads := (find_ok.mp hfind).2
    rw [hnames] at hleads
    obtain ⟨dir, rfl⟩ := hleads.last h1 h2
    rw [hslash] at hfind
    cases hlong : tooLong x with
    | true => simp [stat?, hfind, hlong] at h
    | false =>
      have hspot := spot?_eq_some.mpr ⟨dir, x, hfind, hlong, rfl⟩
      exact ⟨_, hspot, (stat?_of_spot? hspot).symm.trans h⟩

/-! ### neighbours -/

/-- paths that differ in the last name only name files of one directory -/
theorem spot?_beside {q : Path} {init : List String} {x y : String} {a b : Place}
    (hroot : p.isRooted = q.isRooted) (hp : p.names = init ++ [x]) (hq : q.names = init ++ [y])
    (ha : fs.spot? p = some a) (hb : fs.spot? q = some b) :
    ∃ dir : Place, a = dir.child x ∧ b = dir.child y := by
  obtain ⟨dir, name, hfind, -, rfl⟩ := spot?_eq_some.mp ha
  obtain ⟨dir', name', hfind', -, rfl⟩ := spot?_eq_some.mp hb
  have h := (find_ok.mp hfind).2
  have h' := (find_ok.mp hfind').2
  rw [hp, startOf, hroot] at h
  rw [hq] at h'
  obtain ⟨-, -, rfl, -⟩ := h.ends_in
  obtain ⟨h1, h2, rfl, -⟩ := h'.ends_in
  have hbeside := (h.beside h1 h2 q.endsInSlash).walk
  obtain ⟨rfl, -, -⟩ := Goal.named.inj (Except.ok.inj (hbeside.symm.trans h'.walk))
  exact ⟨dir, rfl, rfl⟩

/-- the last name of a path that names a file, with any suffix -/
theorem names_withSuffix_of_spot? (p : Path) :
    ∃ init last, p.names = init ++ [last].filter (!·.isEmpty) ∧
      ∀ {fs : Files} {suffix : String} {place : Place}, '/' ∉ suffix.toList →
        fs.spot? (p.withSuffix suffix) = some place →
          (p.withSuffix suffix).names = init ++ [last ++ suffix] := by
  obtain ⟨init, last, hp, hempty, hsuffix⟩ := p.names_withSuffix
  refine ⟨init, last, hp, fun {fs suffix place} hs h => ?_⟩
  by_cases hne : suffix = ""
  · subst hne
    rw [p.withSuffix_empty] at h ⊢
    obtain ⟨dir, name, hfind, -, -⟩ := spot?_eq_some.mp h
    obtain ⟨hspeak, hleads⟩ := find_ok.mp hfind
    have hlast : last ≠ "" := by
      intro hlast
      rcases hempty hlast with htext | hslash
      · exact hspeak.nonempty htext
      · rw [hslash] at hleads
        rcases List.eq_nil_or_concat p.names with hnil | ⟨ss, s, hss⟩
        · rw [hnil] at hleads
          nomatch hleads
        · rw [hss, List.concat_eq_append] at hleads
          exact absurd hleads.ends_in.2.2.2 (by simp)
    rw [hp, List.filter_cons_of_pos (by simpa using hlast), String.append_empty]
    rfl
  · exact hsuffix suffix hne hs

/-- files whose paths differ in their suffixes are different -/
theorem ne_of_spot?_withSuffix {s t : String} {a b : Place} (hst : s ≠ t) (hs : '/' ∉ s.toList)
    (ht : '/' ∉ t.toList) (ha : fs.spot? (p.withSuffix s) = some a)
    (hb : fs.spot? (p.withSuffix t) = some b) : a ≠ b := by
  obtain ⟨init, last, -, hnames⟩ := names_withSuffix_of_spot? p
  have hroot : (p.withSuffix s).isRooted = (p.withSuffix t).isRooted := by
    rw [p.isRooted_withSuffix hs, p.isRooted_withSuffix ht]
  obtain ⟨dir, rfl, rfl⟩ := spot?_beside hroot (hnames hs ha) (hnames ht hb) ha hb
  exact fun h => hst ((String.append_right_inj last).mp (Place.child_inj h).2)

theorem makeDir_of_isDir (h : fs.find p = .ok g) (hdir : fs.IsDir g) :
    fs.makeDir p = .error .alreadyExists := by
  cases g with
  | stands place => simp [makeDir, h, bind, Except.bind]
  | named dir name slash => simp [makeDir, h, look_ok.mpr hdir, bind, Except.bind]

theorem isDir_of_isDir (h : fs.find p = .ok g) (hdir : fs.IsDir g) : fs.isDir p = true := by
  cases g with
  | stands place => simp [isDir, h]
  | named dir name slash => simp [isDir, h, look_ok.mpr hdir]

theorem find_of_isDir (h : fs.isDir p = true) : ∃ g, fs.find p = .ok g ∧ fs.IsDir g := by
  unfold isDir at h
  split at h
  · rename_i place hfind
    exact ⟨_, hfind, trivial⟩
  · rename_i dir name slash hfind
    split at h
    · rename_i hlook
      exact ⟨_, hfind, look_ok.mp hlook⟩
    · exact absurd h (by simp)
  · exact absurd h (by simp)

/-- no directory is made on the way to one that is there -/
theorem makeDir_along {q : Path} (hq : Path.Along q p) (hdir : fs.isDir p = true) :
    fs.makeDir q ≠ .ok fs' := by
  intro h
  obtain ⟨g, hfind, hg⟩ := find_of_isDir hdir
  obtain ⟨dir, name, slash, hq', -, -⟩ := makeDir_ok h
  obtain ⟨g', hfind', hg'⟩ := find_along hq (find_ok.mp hq').1.nonempty hfind hg
  exact absurd (h.symm.trans (makeDir_of_isDir hfind' hg')) (by simp)

/-! ### files that keep their entries -/

/-- Every entry is still there, a file as a file and a directory as a directory. -/
def Keeps (fs fs' : Files) : Prop :=
  ∀ place e, fs.get? place = some e → ∃ e', fs'.get? place = some e' ∧ (e' = .dir ↔ e = .dir)

theorem Keeps.refl (fs : Files) : fs.Keeps fs := fun _ e h => ⟨e, h, Iff.rfl⟩

theorem Keeps.trans {fs₁ fs₂ fs₃ : Files} (h1 : fs₁.Keeps fs₂) (h2 : fs₂.Keeps fs₃) :
    fs₁.Keeps fs₃ := by
  intro place e h
  obtain ⟨e', h', he'⟩ := h1 place e h
  obtain ⟨e'', h'', he''⟩ := h2 place e' h'
  exact ⟨e'', h'', he''.trans he'⟩

theorem Keeps.dir (h : fs.Keeps fs') (place : Place) (hd : fs.get? place = some .dir) :
    fs'.get? place = some .dir := by
  obtain ⟨e, he, hiff⟩ := h place .dir hd
  rw [he, hiff.mpr rfl]

theorem Keeps.file (h : fs.Keeps fs') {content : Bytes}
    (hf : fs.get? place = some (.file content)) :
    ∃ content', fs'.get? place = some (.file content') := by
  obtain ⟨_ | content', he, hiff⟩ := h place (.file content) hf
  · exact absurd (hiff.mp rfl) (by simp)
  · exact ⟨content', he⟩

theorem keeps_insert (fs : Files) (e : Entry) (hnames : place.names ≠ [])
    (h : ∀ e', fs.get? place = some e' → (e = .dir ↔ e' = .dir)) :
    fs.Keeps (fs.insert place e) := by
  intro other e' he'
  by_cases ho : other = place
  · subst ho
    exact ⟨e, fs.get?_insert_self e hnames, h e' he'⟩
  · exact ⟨e', (fs.get?_insert_of_ne e ho).trans he', Iff.rfl⟩

/-- what was not there before can be taken away again -/
theorem Keeps.erase (h : fs.Keeps fs') (hnone : fs.get? place = none) :
    fs.Keeps (fs'.erase place) := by
  intro other e he
  have ho : other ≠ place := by
    rintro rfl
    exact absurd (hnone.symm.trans he) (by simp)
  rw [get?_erase_of_ne fs' ho]
  exact h other e he

/-! ### trees -/

/-- Every entry stands in a directory. -/
def Closed (fs : Files) : Prop :=
  ∀ (dir : Place) (name : String), fs.get? (dir.child name) ≠ none → fs.get? dir = some .dir

theorem closed_empty : empty.Closed := by
  intro dir name h
  exact absurd (get?_of_names_ne_nil (by simp)) h

theorem Closed.dir_of_append (hc : fs.Closed) {b : Base} {xs ys : List String} (hys : ys ≠ [])
    (h : fs.get? ⟨b, xs ++ ys⟩ ≠ none) : fs.get? ⟨b, xs⟩ = some .dir := by
  induction ys generalizing xs with
  | nil => exact absurd rfl hys
  | cons y ys ih =>
    refine hc ⟨b, xs⟩ y ?_
    cases ys with
    | nil => exact h
    | cons y' ys =>
      rw [← List.singleton_append, ← List.append_assoc] at h
      have := ih (List.cons_ne_nil _ _) h
      simp [Place.child, this]

/-- a place without `..` on the way is reached as soon as there is something -/
theorem Leads.of_closed {dir : Place} {name : String} {sl : Bool} (hc : fs.Closed)
    (h : fs'.Leads slash place ss (.named dir name sl)) (hs : ".." ∉ ss)
    (hget : fs.get? (dir.child name) ≠ none) : fs.Leads slash place ss (.named dir name sl) := by
  generalize hg : Goal.named dir name sl = g at h
  induction h with
  | here => exact absurd hg (by simp)
  | dot _ ih => exact .dot (ih (fun h => hs (List.mem_cons_of_mem _ h)) hg)
  | dots => exact absurd List.mem_cons_self hs
  | name place h1 h2 => exact .name place h1 h2
  | @into place s ss g h1 h2 short _ more rest ih =>
    have hss : ".." ∉ ss := fun h => hs (List.mem_cons_of_mem _ h)
    refine .into h1 h2 short ?_ more (ih hss hg)
    subst hg
    obtain ⟨mid, -, rfl⟩ := rest.spelled hss
    have hne : mid ++ [name] ≠ [] := by simp
    refine hc.dir_of_append hne ?_
    simpa [Place.child] using hget

theorem Closed.up (hc : fs.Closed) (h : fs.get? place = some .dir) :
    fs.get? place.up = some .dir := by
  obtain ⟨b, names⟩ := place
  cases names with
  | nil => cases b <;> exact get?_of_names_eq_nil rfl
  | cons s ss =>
    refine hc _ ((s :: ss).getLast (List.cons_ne_nil _ _)) ?_
    have : (Place.up ⟨b, s :: ss⟩).child ((s :: ss).getLast (List.cons_ne_nil _ _))
        = ⟨b, s :: ss⟩ := by
      simp only [Place.up, Place.child, List.dropLast_concat_getLast]
    rw [this, h]
    simp

theorem Leads.dir {dir : Place} {name : String} {sl : Bool} (hc : fs.Closed)
    (h : fs.Leads slash place ss (.named dir name sl)) (hplace : fs.get? place = some .dir) :
    fs.get? dir = some .dir := by
  generalize hg : Goal.named dir name sl = g at h
  induction h with
  | here => exact absurd hg (by simp)
  | dot _ ih => exact ih hplace hg
  | dots _ ih => exact ih (hc.up hplace) hg
  | name => exact (Goal.named.inj hg).1 ▸ hplace
  | into _ _ _ hd _ _ ih => exact ih hd hg

theorem Closed.dir_of_find (hc : fs.Closed) {dir : Place} {name : String}
    (h : fs.find p = .ok (.named dir name slash)) : fs.get? dir = some .dir :=
  (find_ok.mp h).2.dir hc (get?_of_names_eq_nil (names_startOf p))

theorem Closed.insert (hc : fs.Closed) {dir : Place} {name : String} {e : Entry}
    (hdir : fs.get? dir = some .dir) (hget : fs.get? (dir.child name) ≠ some .dir) :
    (fs.insert (dir.child name) e).Closed := by
  intro d n hne
  by_cases h : d.child n = dir.child name
  · obtain ⟨rfl, rfl⟩ := Place.child_inj h
    have hself : d ≠ d.child n := fun h => by simpa using congrArg (List.length ∘ Place.names) h
    rw [get?_insert_of_ne fs e hself, hdir]
  · rw [get?_insert_of_ne fs e h] at hne
    have hd := hc d n hne
    have hother : d ≠ dir.child name := by
      rintro rfl
      exact hget hd
    rw [get?_insert_of_ne fs e hother, hd]

theorem Closed.erase (hc : fs.Closed) (hnames : place.names ≠ [])
    (hget : fs.get? place ≠ some .dir) : (fs.erase place).Closed := by
  intro d n hne
  have h : d.child n ≠ place := by
    rintro rfl
    exact hne (fs.get?_erase_self hnames)
  rw [get?_erase_of_ne fs h] at hne
  have hd := hc d n hne
  have hother : d ≠ place := by
    rintro rfl
    exact hget hd
  rw [get?_erase_of_ne fs hother, hd]

theorem Closed.insert_spot? (hc : fs.Closed) {e : Entry} (h : fs.spot? p = some place)
    (hget : fs.get? place ≠ some .dir) : (fs.insert place e).Closed := by
  obtain ⟨dir, name, hfind, -, rfl⟩ := spot?_eq_some.mp h
  exact hc.insert (hc.dir_of_find hfind) hget

/-! ### growth -/

/-- Nothing is lost, and a tree remains a tree. -/
structure Grows (fs fs' : Files) : Prop where
  keeps : fs.Keeps fs'
  closed : fs.Closed → fs'.Closed

theorem Grows.refl (fs : Files) : fs.Grows fs := ⟨.refl fs, id⟩

theorem Grows.trans {fs₁ fs₂ fs₃ : Files} (h1 : fs₁.Grows fs₂) (h2 : fs₂.Grows fs₃) :
    fs₁.Grows fs₃ :=
  ⟨h1.keeps.trans h2.keeps, h2.closed ∘ h1.closed⟩

theorem createNew_grows (h : fs.createNew p = .ok fs') : fs.Grows fs' := by
  obtain ⟨place, hspot, hget, rfl⟩ := createNew_ok h
  refine ⟨keeps_insert fs _ (names_ne_nil_of_spot? hspot) ?_, fun hc => ?_⟩
  · simp [hget]
  · exact hc.insert_spot? hspot (by simp [hget])

theorem write_grows {content : Bytes} (h : fs.write p content = .ok fs') : fs.Grows fs' := by
  obtain ⟨place, hspot, hget, rfl⟩ := write_ok h
  refine ⟨keeps_insert fs _ (names_ne_nil_of_spot? hspot) ?_, fun hc => hc.insert_spot? hspot hget⟩
  rintro e he
  simp only [reduceCtorEq, false_iff]
  rintro rfl
  exact hget he

theorem makeDir_grows (h : fs.makeDir p = .ok fs') : fs.Grows fs' := by
  obtain ⟨dir, name, slash, hfind, hget, rfl⟩ := makeDir_ok h
  refine ⟨keeps_insert fs _ (by simp) ?_, fun hc => ?_⟩
  · simp [hget]
  · exact hc.insert (hc.dir_of_find hfind) (by simp [hget])

end Files

end AnfWasm
