import AnfWasm.Log
import AnfWasm.Store.Files

/-!
# Actions on files

`Ends x fs Q` says with which result and with which files an action ends, one that speaks and may
fail (`Ends.bind_run`) or only speaks (`Ends.bind`).
-/

namespace AnfWasm

variable {ε α β : Type}

/-- Whatever has been said before, an action that begins with the files `fs` ends with `Q`. -/
def Ends (x : Log.Speaking (StateM Files) α) (fs : Files) (Q : α → Files → Prop) : Prop :=
  ∀ log, Q (x log fs).1.1 (x log fs).2

namespace Ends

variable {fs : Files}

theorem imp {x : Log.Speaking (StateM Files) α} {Q R : α → Files → Prop} (h : Ends x fs Q)
    (hQ : ∀ a fs', Q a fs' → R a fs') : Ends x fs R := fun log => hQ _ _ (h log)

theorem bind {x : Log.Speaking (StateM Files) α} {f : α → Log.Speaking (StateM Files) β}
    {Q : α → Files → Prop} {R : β → Files → Prop} (h : Ends x fs Q)
    (hf : ∀ a fs', Q a fs' → Ends (f a) fs' R) : Ends (x >>= f) fs R :=
  fun log => hf _ _ (h log) (x log fs).1.2

/-- an operation on files, and what follows when it is done or has failed -/
theorem change {op : Files → Except FileError Files}
    {f : Except FileError Unit → Log.Speaking (StateM Files) β} {R : β → Files → Prop}
    (hok : ∀ fs', op fs = .ok fs' → Ends (f (.ok ())) fs' R)
    (herr : ∀ e, op fs = .error e → Ends (f (.error e)) fs R) :
    Ends ((liftM (Files.change op) : Log.Speaking (StateM Files) _) >>= f) fs R := by
  intro log
  show R ((f (Files.change op fs).1) log (Files.change op fs).2).1.1
    ((f (Files.change op fs).1) log (Files.change op fs).2).2
  unfold Files.change
  cases h : op fs with
  | ok fs' => exact hok fs' h log
  | error e => exact herr e h log

theorem bind_run {x : ExceptT ε (Log.Speaking (StateM Files)) α}
    {f : α → ExceptT ε (Log.Speaking (StateM Files)) β}
    {Q : Except ε α → Files → Prop} {R : Except ε β → Files → Prop}
    (h : Ends x.run fs Q) (hok : ∀ a fs', Q (.ok a) fs' → Ends (f a).run fs' R)
    (herr : ∀ e fs', Q (.error e) fs' → R (.error e) fs') : Ends (x >>= f).run fs R := by
  rw [ExceptT.run_bind]
  refine Ends.bind h fun r fs' hr => ?_
  cases r with
  | ok a => exact hok a fs' hr
  | error e => exact fun _ => herr e fs' hr

theorem lift_run {x : StateM Files α} {f : α → ExceptT ε (Log.Speaking (StateM Files)) β}
    {R : Except ε β → Files → Prop} (h : Ends (f (x fs).1).run (x fs).2 R) :
    Ends ((liftM x : ExceptT ε (Log.Speaking (StateM Files)) α) >>= f).run fs R :=
  fun log => h log

theorem lift_speaking_run {x : Log.Speaking (StateM Files) α}
    {f : α → ExceptT ε (Log.Speaking (StateM Files)) β}
    {Q : α → Files → Prop} {R : Except ε β → Files → Prop} (h : Ends x fs Q)
    (hf : ∀ a fs', Q a fs' → Ends (f a).run fs' R) :
    Ends ((liftM x : ExceptT ε (Log.Speaking (StateM Files)) α) >>= f).run fs R :=
  fun log => hf _ _ (h log) (x log fs).1.2

theorem change_run {op : Files → Except FileError Files}
    {f : Except FileError Unit → ExceptT ε (Log.Speaking (StateM Files)) β}
    {R : Except ε β → Files → Prop}
    (hok : ∀ fs', op fs = .ok fs' → Ends (f (.ok ())).run fs' R)
    (herr : ∀ e, op fs = .error e → Ends (f (.error e)).run fs R) :
    Ends ((liftM (Files.change op) : ExceptT ε (Log.Speaking (StateM Files)) _) >>= f).run fs
      R := by
  refine lift_run ?_
  unfold Files.change
  cases h : op fs with
  | ok fs' => exact hok fs' h
  | error e => exact herr e h

end Ends

section
variable {fs fs' : Files} {log log' : List LogRecord}

theorem bind_apply (x : Log.Speaking (StateM Files) α) (f : α → Log.Speaking (StateM Files) β) :
    (x >>= f) log fs = f (x log fs).1.1 (x log fs).1.2 (x log fs).2 := rfl

variable {x : ExceptT ε (Log.Speaking (StateM Files)) α}
  {f : α → ExceptT ε (Log.Speaking (StateM Files)) β}

theorem run_bind_of_ok {a : α} (h : x.run log fs = ((.ok a, log'), fs')) :
    (x >>= f).run log fs = (f a).run log' fs' := by
  rw [ExceptT.run_bind, bind_apply, h]

theorem run_bind_of_error {e : ε} (h : x.run log fs = ((.error e, log'), fs')) :
    (x >>= f).run log fs = ((.error e, log'), fs') := by
  rw [ExceptT.run_bind, bind_apply, h]
  rfl

end

end AnfWasm
