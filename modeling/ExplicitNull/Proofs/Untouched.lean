import ExplicitNull.CommandLine.Run
import ExplicitNull.Proofs.Restoring

/-!
Programs that leave the tree as it is. Whatever only looks at the tree does so in any case. A run of
the command does so whenever it ends with an exit code other than 0, and when its mode is to list or
to show: all that can end it early comes before the first change, and behind the first change nothing
ends it.
-/
namespace ExplicitNull

namespace Tree

variable {α β : Type} {a : StateM Tree α} {f : α → StateM Tree β}

def Keeps (a : StateM Tree α) : Prop := ∀ t, (a.run t).2 = t

/-- A program that leaves the tree as it finds it if its result has a property. -/
def KeepsWhen (p : α → Prop) (a : StateM Tree α) : Prop := ∀ t, p (a.run t).1 → (a.run t).2 = t

theorem Keeps.pure (x : α) : Keeps (Pure.pure x : StateM Tree α) := fun _ => rfl

theorem Keeps.bind (ha : Keeps a) (hf : ∀ x, Keeps (f x)) : Keeps (a >>= f) := by
  intro t
  rw [run_bind, hf, ha]

theorem Keeps.when (ha : Keeps a) (p : α → Prop) : KeepsWhen p a := fun t _ => ha t

theorem KeepsWhen.bind {p : β → Prop} (ha : Keeps a) (hf : ∀ x, KeepsWhen p (f x)) :
    KeepsWhen p (a >>= f) := by
  intro t hp
  rw [run_bind] at hp ⊢
  rw [hf _ _ hp, ha]

/-- A first part that keeps the tree unless all is well, and a second part that can only spoil it
then. -/
theorem KeepsWhen.andThen {p : β → Prop} {q : α → Prop} (ha : KeepsWhen q a)
    (hf : ∀ x, KeepsWhen p (f x)) (hq : ∀ x t, p ((f x).run t).1 → q x) :
    KeepsWhen p (a >>= f) := by
  intro t hp
  rw [run_bind] at hp ⊢
  rw [hf _ _ hp, ha t (hq _ _ hp)]

theorem KeepsWhen.of_never {p : α → Prop} (h : ∀ t, ¬p (a.run t).1) : KeepsWhen p a :=
  fun t hp => absurd hp (h t)

theorem keeps_kind (p : Path) :
    Keeps (FileSystem.kind p : StateM Tree (Except FileError EntryKind)) := fun _ => rfl

theorem keeps_filesBelow (enter : Bytes → Bool) (root : Path) :
    Keeps (FileSystem.filesBelow enter root : StateM Tree (Except FileError (List Path))) :=
  fun _ => rfl

theorem keeps_read (p : Path) : Keeps (FileSystem.read p : StateM Tree (Except FileError Bytes)) :=
  fun _ => rfl

theorem keeps_readText (p : Path) :
    Keeps (ExplicitNull.readText p : StateM Tree (Except FileError Bytes)) := by
  refine (keeps_read p).bind fun r => ?_
  cases r with
  | error e => exact .pure _
  | ok bytes => exact .pure _

theorem keeps_readAll (paths : List Path) : Keeps (readAll paths : StateM Tree (List Reading)) := by
  induction paths with
  | nil => exact .pure _
  | cons p rest ih => exact (keeps_readText p).bind fun _ => ih.bind fun _ => .pure _

theorem keeps_validateRoot (root : Path) :
    Keeps (validateRoot root : StateM Tree (Except Failure Unit)) := by
  refine (keeps_kind root).bind fun r => ?_
  rcases r with _ | kind
  · exact .pure _
  · cases kind <;> exact .pure _

theorem keeps_collect (root : Path) (keep : Path → Bool) :
    Keeps (Discovery.collect root keep : StateM Tree (Except FileError (List Path))) := by
  refine (keeps_filesBelow _ root).bind fun r => ?_
  cases r <;> exact .pure _

theorem keeps_collectFiles (root : Path) (selection : Selection) :
    Keeps (collectFiles root selection : StateM Tree (Except Failure (List Path))) := by
  refine (keeps_collect root _).bind fun r => ?_
  cases r <;> exact .pure _

theorem keeps_collectBackups (root : Path) (suffix : Bytes) :
    Keeps (collectBackups root suffix : StateM Tree (List Path)) := by
  refine (keeps_collect root _).bind fun r => ?_
  cases r <;> exact .pure _

theorem keeps_scan (root : Path) (selection : Selection) :
    Keeps (scan root selection : StateM Tree (Except Failure ScanReport)) := by
  refine (keeps_validateRoot root).bind fun r => ?_
  cases r with
  | error f => exact .pure _
  | ok _ =>
    refine (keeps_collectFiles root selection).bind fun r => ?_
    cases r with
    | error f => exact .pure _
    | ok files => exact (keeps_readAll files).bind fun _ => .pure _

theorem keeps_prepare (plan : Plan) (style : Style) :
    Keeps (prepare plan style : StateM Tree Prepared) :=
  (keeps_readAll _).bind fun _ => .pure _

theorem keeps_load (file : Path) :
    Keeps (Settings.load file : StateM Tree (Except Failure Settings)) := by
  refine (keeps_readText file).bind fun r => ?_
  cases r with
  | error e => exact .pure _
  | ok text =>
    dsimp only
    split
    · exact .pure _
    · split <;> exact .pure _

theorem keeps_firstExisting (paths : List Path) :
    Keeps (Settings.firstExisting paths : StateM Tree (Option Path)) := by
  induction paths with
  | nil => exact .pure _
  | cons p rest ih =>
    refine (keeps_kind p).bind fun r => ?_
    cases r with
    | error e => exact ih
    | ok kind => exact .pure _

theorem keeps_chooseFile (root : Path) (given : Option Path) :
    Keeps (Settings.chooseFile root given : StateM Tree (Option Path)) := by
  cases given with
  | none => exact keeps_firstExisting _
  | some file => exact .pure _

theorem keeps_loadSelection (root : Path) (given : Option Path) (overrides : Overrides) :
    Keeps (Settings.loadSelection root given overrides :
      StateM Tree (Except Failure (Selection × Option Path))) := by
  refine (keeps_chooseFile root given).bind fun file => ?_
  cases file
  case' none => refine (Keeps.pure _).bind fun loaded => ?_
  case' some p => refine (keeps_load p).bind fun loaded => ?_
  all_goals
    cases loaded with
    | error f => exact .pure _
    | ok settings =>
      dsimp only
      split <;> exact .pure _

/-- Restoring fails only before the first move. -/
theorem keepsWhen_restore (root : Path) (suffix : Bytes) :
    KeepsWhen (fun r => ∃ f, r = .error f)
      (restore root suffix : StateM Tree (Except Failure (List RestoreOutcome))) := by
  refine .bind (keeps_validateRoot root) fun r => ?_
  cases r with
  | error f => exact (Keeps.pure _).when _
  | ok _ =>
    refine .bind (keeps_collectBackups root suffix) fun backups => ?_
    apply KeepsWhen.of_never
    intro t hfailed
    obtain ⟨f, hf⟩ := hfailed
    cases hf

end Tree

namespace CommandLine

open ExplicitNull.Tree

/-- An end of a run that is to leave the tree as it was: a failure, or any end of a run that only
looks. -/
def Spares (mode : Mode) (o : Output) : Prop := o.code ≠ 0 ∨ mode = .list ∨ mode = .dryRun

theorem keepsWhen_runRestore (root : Path) (suffix : Bytes) :
    KeepsWhen (Spares .restore) (runRestore root suffix : StateM Tree Output) := by
  refine .andThen (keepsWhen_restore root suffix) (fun r => ?_) (fun r t hspares => ?_)
  · cases r <;> exact (Keeps.pure _).when _
  · cases r with
    | error f => exact ⟨f, rfl⟩
    | ok outcomes => rcases hspares with hcode | hmode | hmode <;> contradiction

/-- Making changes ends with exit code 0. -/
theorem keepsWhen_runChanges (report : ScanReport) (selection : Selection) {mode : Mode}
    (hlist : mode ≠ .list) :
    KeepsWhen (Spares mode) (runChanges report selection mode : StateM Tree Output) := by
  refine .bind (keeps_prepare _ _) fun prepared => ?_
  by_cases hmode : mode = .dryRun
  · rw [if_pos hmode]
    exact ((Keeps.pure _).bind fun _ => .pure _).when _
  · rw [if_neg hmode]
    apply KeepsWhen.of_never
    intro t hspares
    rcases hspares with hcode | hmodes
    · exact hcode rfl
    · exact hmodes.elim hlist hmode

theorem keepsWhen_runScan (o : Options) (selection : Selection) :
    KeepsWhen (Spares o.mode) (runScan o selection : StateM Tree Output) := by
  refine .bind (keeps_scan _ _) fun r => ?_
  cases r with
  | error f => exact (Keeps.pure _).when _
  | ok report =>
    dsimp only
    split
    · split <;> exact (Keeps.pure _).when _
    split
    · exact (Keeps.pure _).when _
    split
    · exact (Keeps.pure _).when _
    next hlist =>
      refine .andThen (keepsWhen_runChanges report selection hlist) ?_ fun _ _ hspares => hspares
      exact fun _ => (Keeps.pure _).when _

theorem keepsWhen_runOptions (o : Options) :
    KeepsWhen (Spares o.mode) (runOptions o : StateM Tree Output) := by
  unfold runOptions
  split
  · exact (Keeps.pure _).when _
  refine .bind (keeps_validateRoot _) fun r => ?_
  cases r with
  | error f => exact (Keeps.pure _).when _
  | ok _ =>
    refine .bind (keeps_loadSelection _ _ _) fun r => ?_
    rcases r with f | ⟨selection, file⟩
    · exact (Keeps.pure _).when _
    have hnotice : ∀ (a : StateM Tree Output) (notice : Bytes), KeepsWhen (Spares o.mode) a →
        KeepsWhen (Spares o.mode) (a >>= fun output => Pure.pure (output.after [] notice)) :=
      fun a notice ha => ha.andThen (fun _ => (Keeps.pure _).when _) fun _ _ hspares => hspares
    dsimp only
    split
    · next hmode =>
      apply hnotice
      rw [hmode]
      exact keepsWhen_runRestore _ _
    · apply hnotice
      exact keepsWhen_runScan o selection

/-- A run of the command that does not end with exit code 0 leaves the tree as it was, and so does
every run whose mode is to list or to show. -/
theorem run_spares {args : List Bytes} {t t' : Tree} {output : Output}
    (h : (run args : StateM Tree Output).run t = (output, t')) :
    (output.code ≠ 0 → t' = t) ∧
      ∀ o, parse? args = some o → o.mode = .list ∨ o.mode = .dryRun → t' = t := by
  unfold run at h
  unfold parse?
  rcases hrequest : request? args with _ | (o | _ | _) <;> rw [hrequest] at h
  case some.options =>
    have hkeeps : Spares o.mode output → t' = t := by
      have hrun := keepsWhen_runOptions o t
      rw [h] at hrun
      exact hrun
    refine ⟨fun hcode => hkeeps (.inl hcode), fun o' ho hmode => ?_⟩
    cases ho
    exact hkeeps (.inr hmode)
  -- a usage error or an answer ends the run before the tree is looked at
  all_goals
    have htree : t' = t := (congrArg Prod.snd h).symm
    exact ⟨fun _ => htree, fun _ _ _ => htree⟩

/-- A run that shows the changes of two files, and one that refuses its suffix. -/
theorem run_spares_sampleTree :
    let shown := (run (["--path", "src", "--dry-run"].map utf8) : StateM Tree Output).run sampleTree
    let refused := (run (["--path", "src", "--apply", "--suffix", "a/b"].map utf8) :
      StateM Tree Output).run sampleTree
    (shown.1.code = 0 ∧ shown.2 = sampleTree) ∧ refused.1.code = 1 ∧ refused.2 = sampleTree := by
  intro shown refused
  obtain ⟨o, hparse, hmode⟩ : ∃ o, parse? (["--path", "src", "--dry-run"].map utf8) = some o ∧
      o.mode = .dryRun := ⟨_, rfl, rfl⟩
  have hcode : shown.1.code = 0 := by decide +kernel
  have hrefused : refused.1.code = 1 := by decide +kernel
  have htree : shown.2 = sampleTree :=
    (run_spares (Prod.eta shown).symm).2 o hparse (.inr hmode)
  have hkept : refused.2 = sampleTree :=
    (run_spares (Prod.eta refused).symm).1 (by rw [hrefused]; decide)
  exact ⟨⟨hcode, htree⟩, hrefused, hkept⟩

end CommandLine

end ExplicitNull
