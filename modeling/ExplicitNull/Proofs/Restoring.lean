import ExplicitNull.Proofs.Backups
import ExplicitNull.Proofs.Runs

/-!
Applying changes and moving the backups home. Each change leads to a tree that differs from the
first one in one file more, or in none. The listing of the backups then finds those of the changed
files whose paths are text, so that moving them home leaves a difference only at the other ones.
-/
namespace ExplicitNull

variable {t t' : Tree} {root : Path} {here : Location} {suffix : Bytes} {after : Path → Bytes}
  {files : Set Spot} {x : Spot}

namespace Tree

theorem BackedUp.get?_location (h : BackedUp t t' root here suffix after files) {old : Bytes}
    (hold : t.get? (x.location here) = some (.file old)) (hx : x ∉ files) :
    t'.get? (x.location here) = some (.file old) := by
  rw [← hold]
  apply h.same
  intro y hy
  constructor
  · intro heq
    exact hx (Spot.location_injective heq ▸ hy)
  · exact fun heq => (h.changed y hy).backup_ne_file hold heq.symm

theorem BackedUp.get?_backup (h : BackedUp t t' root here suffix after files)
    (hready : t.Ready root here suffix x) (hx : x ∉ files)
    (hfault : (x.backup suffix).fault? root = none) :
    t'.get? ((x.backup suffix).location here) = t.get? ((x.backup suffix).location here) := by
  apply h.same
  intro y hy
  constructor
  · intro heq
    obtain ⟨old, hold, -⟩ := (h.changed y hy).bytes
    rw [← heq] at hold
    cases hready.clear hfault _ hold
  · intro heq
    exact hx (Spot.backup_injective (Spot.location_injective heq) ▸ hy)

theorem BackedUp.ne_link_backup (h : BackedUp t t' root here suffix after files)
    (hready : t.Ready root here suffix x) (hx : x ∉ files)
    (hfault : (x.backup suffix).fault? root = none) (target : Path) :
    t'.get? ((x.backup suffix).location here) ≠ some (.link target) := by
  intro hlink
  rw [h.get?_backup hready hx hfault] at hlink
  cases hready.clear hfault _ hlink

theorem BackedUp.vacant_backup (h : BackedUp t t' root here suffix after files)
    (hready : t.Ready root here suffix x) (hx : x ∉ files)
    (hfault : (x.backup suffix).fault? root = none)
    (hframe : t'.frame ((x.backup suffix).location here) = none) :
    t.get? ((x.backup suffix).location here) = none := by
  have hget := h.get?_backup hready hx hfault
  rcases frame_eq_none.1 hframe with hnone | ⟨bytes, hfile⟩
  · exact hget.symm.trans hnone
  · cases hready.clear hfault _ (hget.symm.trans hfile)

/-- A change of a file below a root: there is no backup and nothing happens, or both the backup and
the file are set. -/
theorem Reaches.run_applyChange_cases (hsuffix : IsSuffix suffix) (h : t.Reaches root here x)
    {old : Bytes} (hget : t.get? (x.location here) = some (.file old))
    (hlink : (x.backup suffix).fault? root = none →
      ∀ target, t.get? ((x.backup suffix).location here) ≠ some (.link target))
    {c : Change} (hc : c.path = x.path root) :
    (∃ e, (applyChange c suffix : StateM Tree ApplyOutcome).run t = (.backupFailed c.path e, t)) ∨
      x.fault? root = none ∧ (x.backup suffix).fault? root = none ∧
        t.frame ((x.backup suffix).location here) = none ∧
        (applyChange c suffix : StateM Tree ApplyOutcome).run t =
          (.applied (Change.backupPath c.path suffix), t.changeAt here suffix x old c.after) := by
  have hbackup := h.backup hsuffix.nonempty hsuffix.no_slash
  have hpath : Change.backupPath c.path suffix = (x.backup suffix).path root := by
    rw [hc, Spot.path_backup]
  rcases h.copy_cases hbackup hget (Spot.backup_ne hsuffix.nonempty) hlink with
    ⟨e, hcopy⟩ | ⟨hfits, hfault, hframe, hcopy⟩
  · rw [← hpath, ← hc] at hcopy
    exact .inl ⟨e, run_applyChange_of_error hcopy⟩
  · have hsame := frame_set_file hframe old
    have hframe' : (t.set ((x.backup suffix).location here) (.file old)).frame
        (x.location here) = none := by
      rw [hsame]
      exact frame_eq_none.2 (.inr ⟨old, hget⟩)
    have hwrite := (h.congr hsame.symm).write hfits hframe' c.after
    rw [← hc] at hwrite
    rw [← hpath, ← hc] at hcopy
    exact .inr ⟨hfits, hfault, hframe, run_applyChange_of_ok hcopy hwrite⟩

/-- One change: it is made and enters its file into the difference, or leaves the tree as it is. -/
theorem BackedUp.run_applyChange (hsuffix : IsSuffix suffix) (ht : t.WellFormed)
    (hroot : t.resolve .target root = .ok (.found here .directory))
    (h : BackedUp t t' root here suffix after files) (hready : t.Ready root here suffix x)
    (hx : x ∉ files) {c : Change} (hc : c.path = x.path root) (hafter : c.after = after c.path) :
    (∃ e, (applyChange c suffix : StateM Tree ApplyOutcome).run t' =
        (.backupFailed c.path e, t')) ∨
      ∃ t'', (applyChange c suffix : StateM Tree ApplyOutcome).run t' =
          (.applied (Change.backupPath c.path suffix), t'') ∧
        BackedUp t t'' root here suffix after (insert x files) := by
  obtain ⟨old, hold⟩ := hready.listed.isFile
  have hreaches : t'.Reaches root here x := (ht.reaches_of_get? hroot hold).congr h.frame
  rcases hreaches.run_applyChange_cases hsuffix (h.get?_location hold hx)
    (h.ne_link_backup hready hx) hc with hfailed | ⟨hfits, hfault, hframe, hrun⟩
  · exact .inl hfailed
  · have hvacant := h.vacant_backup hready hx hfault hframe
    rw [hafter, hc, ← hc] at hrun
    refine .inr ⟨_, hrun, ?_⟩
    rw [hc]
    exact h.changeAt hsuffix ht hready hfits hfault hold hvacant hx

/-- The files that changes with these outcomes add to those changed before. -/
structure Adds (root : Path) (suffix : Bytes) (changes : List Change)
    (outcomes : List ApplyOutcome) (files files' : Set Spot) : Prop where
  subset : files ⊆ files'
  applied : ∀ c backup, (c, ApplyOutcome.applied backup) ∈ changes.zip outcomes →
    backup = Change.backupPath c.path suffix ∧ ∃ x ∈ files', c.path = x.path root
  new : ∀ x ∈ files', x ∈ files ∨ ∃ c, c.path = x.path root ∧
    (c, ApplyOutcome.applied (Change.backupPath c.path suffix)) ∈ changes.zip outcomes

theorem Adds.cons_failed {c : Change} {changes : List Change} {outcomes : List ApplyOutcome}
    {files' : Set Spot} (h : Adds root suffix changes outcomes files files') (e : FileError) :
    Adds root suffix (c :: changes) (.backupFailed c.path e :: outcomes) files files' where
  subset := h.subset
  applied d backup hd := by
    rcases List.mem_cons.1 hd with heq | hd
    · cases heq
    · exact h.applied d backup hd
  new x hx := (h.new x hx).imp_right fun ⟨d, hpath, hd⟩ => ⟨d, hpath, List.mem_cons_of_mem _ hd⟩

theorem Adds.cons_applied {c : Change} {changes : List Change} {outcomes : List ApplyOutcome}
    {files' : Set Spot} (h : Adds root suffix changes outcomes (insert x files) files')
    (hc : c.path = x.path root) :
    Adds root suffix (c :: changes) (.applied (Change.backupPath c.path suffix) :: outcomes)
      files files' where
  subset := (Set.subset_insert x files).trans h.subset
  applied d backup hd := by
    rcases List.mem_cons.1 hd with heq | hd
    · cases heq
      exact ⟨rfl, x, h.subset (Set.mem_insert x files), hc⟩
    · exact h.applied d backup hd
  new y hy := by
    rcases h.new y hy with (heq | hold) | ⟨d, hpath, hd⟩
    · rw [heq]
      exact .inr ⟨c, hc, List.mem_cons_self ..⟩
    · exact .inl hold
    · exact .inr ⟨d, hpath, List.mem_cons_of_mem _ hd⟩

/-- All changes in their order, each to a file of its own. -/
theorem BackedUp.run_applyAll (hsuffix : IsSuffix suffix) (ht : t.WellFormed)
    (hroot : t.resolve .target root = .ok (.found here .directory)) {changes : List Change}
    (hready : ∀ c ∈ changes, ∃ x, t.Ready root here suffix x ∧ c.path = x.path root)
    (hafter : ∀ c ∈ changes, c.after = after c.path)
    (hnodup : (changes.map Change.path).Nodup) (h : BackedUp t t' root here suffix after files)
    (hfiles : ∀ x ∈ files, x.path root ∉ changes.map Change.path) :
    ∃ outcomes t'' files', (applyAll suffix changes : StateM Tree (List ApplyOutcome)).run t' =
      (outcomes, t'') ∧ BackedUp t t'' root here suffix after files' ∧
        Adds root suffix changes outcomes files files' := by
  induction changes generalizing t' files with
  | nil =>
    refine ⟨[], t', files, rfl, h, subset_rfl, ?_, fun x hx => .inl hx⟩
    exact fun c backup hc => absurd hc List.not_mem_nil
  | cons c rest ih =>
    rw [List.map_cons, List.nodup_cons] at hnodup
    rw [List.forall_mem_cons] at hready hafter
    obtain ⟨⟨x, hx, hc⟩, hready⟩ := hready
    have hnew : x ∉ files := fun hmem => hfiles x hmem (List.mem_cons.2 (.inl hc.symm))
    have hrest : ∀ y ∈ files, y.path root ∉ rest.map Change.path :=
      fun y hy hmem => hfiles y hy (List.mem_cons_of_mem c.path hmem)
    rcases h.run_applyChange hsuffix ht hroot hx hnew hc hafter.1 with ⟨e, hrun⟩ | ⟨t₁, hrun, h₁⟩
    · obtain ⟨outcomes, t₂, files₂, hrun', h₂, hadds⟩ := ih hready hafter.2 hnodup.2 h hrest
      refine ⟨_ :: outcomes, t₂, files₂, ?_, h₂, hadds.cons_failed e⟩
      rw [run_applyAll_cons, hrun]
      dsimp only
      rw [hrun']
    · have hrest₁ : ∀ y ∈ insert x files, y.path root ∉ rest.map Change.path := by
        rintro y (rfl | hy) hmem
        · rw [← hc] at hmem
          exact hnodup.1 hmem
        · exact hrest y hy hmem
      obtain ⟨outcomes, t₂, files₂, hrun', h₂, hadds⟩ := ih hready hafter.2 hnodup.2 h₁ hrest₁
      refine ⟨_ :: outcomes, t₂, files₂, ?_, h₂, hadds.cons_applied hc⟩
      rw [run_applyAll_cons, hrun]
      dsimp only
      rw [hrun']

/-- No file that the walk below a root reaches is named like a backup. -/
def IsClean (t : Tree) (root : Path) (suffix : Bytes) : Prop :=
  ∀ p ∈ t.reached root, ∀ name, p.fileName? = some name → suffix <:+ name →
    name.length ≤ suffix.length

theorem IsClean.not_suffix (hclean : t.IsClean root suffix) (ht : t.WellFormed)
    (hroot : t.resolve .target root = .ok (.found here .directory))
    (hx : t.Lists Discovery.mayEnter root here x) :
    ¬(suffix.length < x.name.length ∧ suffix <:+ x.name) := by
  obtain ⟨bytes, hget⟩ := hx.isFile
  have hreached := (ht.mem_reached hroot).2 ⟨x, hx, rfl⟩
  intro hname
  have hle := hclean _ hreached x.name
    (Spot.fileName?_path (raw_ne_nil_of_resolve hroot) (ht.isProper hget)) hname.2
  exact absurd hname.1 (Nat.not_lt.2 hle)

/-- What is listed as a backup is the backup of a changed file. -/
theorem BackedUp.exists_of_mem_backups (ht : t.WellFormed)
    (hroot : t.resolve .target root = .ok (.found here .directory))
    (hclean : t.IsClean root suffix) (h : BackedUp t t' root here suffix after files) {p : Path}
    (hp : p ∈ t'.backups root suffix) : ∃ x ∈ files, p = (x.backup suffix).path root := by
  obtain ⟨hreached, hbackup⟩ := mem_backups_iff.1 hp
  have hroot' := resolve_root_congr h.frame hroot
  obtain ⟨y, hlists, rfl⟩ := (h.wellFormed.mem_reached hroot').1 hreached
  obtain ⟨bytes, hget⟩ := hlists.isFile
  by_contra hnone
  -- Any other file was there before, and then it was no backup.
  have hbefore : ∃ bytes, t.get? (y.location here) = some (.file bytes) := by
    by_cases hy : y ∈ files
    · obtain ⟨old, hold, -⟩ := (h.changed y hy).bytes
      exact ⟨old, hold⟩
    · refine ⟨bytes, ?_⟩
      rw [← hget]
      symm
      apply h.same
      intro x hx
      constructor
      · intro heq
        exact hy (Spot.location_injective heq ▸ hx)
      · intro heq
        exact hnone ⟨x, hx, by rw [Spot.location_injective heq]⟩
  have hname := (Spot.isBackup_path (raw_ne_nil_of_resolve hroot)
    (h.wellFormed.isProper hget) suffix).1 hbackup
  exact hclean.not_suffix ht hroot ⟨hlists.enter, hlists.short, hbefore⟩ hname.2

/-- The backup of a changed file is listed if its path is text. -/
theorem BackedUp.mem_backups (hsuffix : IsSuffix suffix) (ht : t.WellFormed)
    (hroot : t.resolve .target root = .ok (.found here .directory))
    (h : BackedUp t t' root here suffix after files) (hx : x ∈ files)
    (htext : Utf8.isValid ((x.backup suffix).path root).raw = true) :
    (x.backup suffix).path root ∈ t'.backups root suffix := by
  have hchanged := h.changed x hx
  obtain ⟨old, hold, -, hbackup⟩ := hchanged.bytes
  have hshort := Path.length_lt_of_fault? (Spot.fault?_eq_none.1 hchanged.backup_fits).1
  have hlists : t'.Lists Discovery.mayEnter root here (x.backup suffix) :=
    ⟨hchanged.ready.listed.enter, hshort, old, hbackup⟩
  refine mem_backups_iff.2 ⟨?_, ?_⟩
  · exact (h.wellFormed.mem_reached (resolve_root_congr h.frame hroot)).2 ⟨_, hlists, rfl⟩
  · exact Spot.isBackup_backup (raw_ne_nil_of_resolve hroot) (ht.isProper hold)
      hsuffix.nonempty hsuffix.no_slash htext

/-- One move: the file is as it was, and its backup is gone. -/
theorem BackedUp.exists_rename (hsuffix : IsSuffix suffix) (ht : t.WellFormed)
    (hroot : t.resolve .target root = .ok (.found here .directory))
    (h : BackedUp t t' root here suffix after files) (hx : x ∈ files) :
    ∃ t'', t'.rename ((x.backup suffix).path root) (x.path root) = .ok t'' ∧
      BackedUp t t'' root here suffix after (files \ {x}) := by
  have hchanged := h.changed x hx
  obtain ⟨old, hold, hnew, hbackup⟩ := hchanged.bytes
  have hreaches : t'.Reaches root here x := (ht.reaches_of_get? hroot hold).congr h.frame
  have hframe : t'.frame (x.location here) = none := frame_eq_none.2 (.inr ⟨_, hnew⟩)
  have hrename := (hreaches.backup hsuffix.nonempty hsuffix.no_slash).rename hreaches
    hchanged.backup_fits hchanged.fits hbackup hframe (Spot.backup_ne hsuffix.nonempty).symm
  exact ⟨_, hrename, h.restoreAt ht hx hold⟩

/-- Files with the same backup path are the same. -/
theorem BackedUp.eq_of_backup (hsuffix : IsSuffix suffix) (ht : t.WellFormed)
    (hroot : t.resolve .target root = .ok (.found here .directory))
    (h : BackedUp t t' root here suffix after files) {y : Spot} (hx : x ∈ files) (hy : y ∈ files)
    (heq : (x.backup suffix).path root = (y.backup suffix).path root) : x = y := by
  have hnamed : ∀ z ∈ files, (z.backup suffix).IsNamed := by
    intro z hz
    obtain ⟨old, hold, -⟩ := (h.changed z hz).bytes
    exact ((ht.isProper hold).backup hsuffix.nonempty hsuffix.no_slash).isNamed
  exact Spot.backup_injective
    (Spot.path_injective (raw_ne_nil_of_resolve hroot) (hnamed x hx) (hnamed y hy) heq)

/-- The changed files that have a backup which is not text. Their backups stay where they are. -/
def stranded (root : Path) (suffix : Bytes) (files : Set Spot) : Set Spot :=
  {x ∈ files | Utf8.isValid ((x.backup suffix).path root).raw = false}

theorem stranded_diff (htext : Utf8.isValid ((x.backup suffix).path root).raw = true) :
    stranded root suffix (files \ {x}) = stranded root suffix files := by
  refine Set.ext fun y => ⟨fun hy => ⟨hy.1.1, hy.2⟩, fun hy => ⟨⟨hy.1, ?_⟩, hy.2⟩⟩
  rintro rfl
  rw [hy.2] at htext
  cases htext

/-- Of an applied change whose backup is not text the file is stranded. -/
theorem Adds.exists_stranded {changes : List Change} {outcomes : List ApplyOutcome}
    (h : Adds root suffix changes outcomes ∅ files) {c : Change} {backup : Path}
    (hc : (c, ApplyOutcome.applied backup) ∈ changes.zip outcomes)
    (htext : Utf8.isValid backup.raw = false) :
    ∃ x ∈ stranded root suffix files,
      c.path = x.path root ∧ backup = (x.backup suffix).path root := by
  obtain ⟨hbackup, x, hx, hpath⟩ := h.applied c backup hc
  rw [hpath, Spot.path_backup] at hbackup
  rw [hbackup] at htext
  exact ⟨x, ⟨hx, htext⟩, hpath, hbackup⟩

/-- A stranded file is one of an applied change. -/
theorem Adds.exists_of_stranded {changes : List Change} {outcomes : List ApplyOutcome}
    (h : Adds root suffix changes outcomes ∅ files) (hx : x ∈ stranded root suffix files) :
    ∃ c, c.path = x.path root ∧
      (c, ApplyOutcome.applied ((x.backup suffix).path root)) ∈ changes.zip outcomes := by
  obtain ⟨c, hpath, hc⟩ := (h.new x hx.1).resolve_left (Set.notMem_empty x)
  rw [hpath, Spot.path_backup] at hc
  exact ⟨c, hpath, hc⟩

/-- All moves: the files whose backups are text are as they were. -/
theorem BackedUp.run_moveAll (hsuffix : IsSuffix suffix) (ht : t.WellFormed)
    (hroot : t.resolve .target root = .ok (.found here .directory)) {backups : List Path}
    (hnodup : backups.Nodup)
    (hbackups : ∀ p ∈ backups, ∃ x ∈ files, p = (x.backup suffix).path root)
    (hall : ∀ x ∈ files, Utf8.isValid ((x.backup suffix).path root).raw = true →
      (x.backup suffix).path root ∈ backups)
    (h : BackedUp t t' root here suffix after files) :
    ∃ outcomes t'', (Restore.moveAll suffix backups : StateM Tree (List RestoreOutcome)).run t' =
      (outcomes, t'') ∧ (∀ o ∈ outcomes, o.error = none) ∧
        BackedUp t t'' root here suffix after (stranded root suffix files) := by
  induction backups generalizing t' files with
  | nil =>
    have hstay : stranded root suffix files = files := by
      refine Set.sep_eq_self_iff_mem_true.2 fun x hx => ?_
      exact Bool.eq_false_iff.2 fun htext => absurd (hall x hx htext) List.not_mem_nil
    rw [hstay]
    exact ⟨[], t', rfl, fun _ ho => absurd ho List.not_mem_nil, h⟩
  | cons p rest ih =>
    rw [List.nodup_cons] at hnodup
    rw [List.forall_mem_cons] at hbackups
    obtain ⟨⟨x, hx, rfl⟩, hbackups⟩ := hbackups
    have hrest : ∀ y ∈ files, y ≠ x → Utf8.isValid ((y.backup suffix).path root).raw = true →
        (y.backup suffix).path root ∈ rest := by
      intro y hy hne htext
      refine (List.mem_cons.1 (hall y hy htext)).resolve_left fun heq => ?_
      exact hne (h.eq_of_backup hsuffix ht hroot hy hx heq)
    cases htext : Utf8.isValid ((x.backup suffix).path root).raw with
    | true =>
      obtain ⟨t₁, hrename, h₁⟩ := h.exists_rename hsuffix ht hroot hx
      have hothers : ∀ q ∈ rest, ∃ y ∈ files \ {x}, q = (y.backup suffix).path root := by
        intro q hq
        obtain ⟨y, hy, rfl⟩ := hbackups q hq
        exact ⟨y, ⟨hy, fun heq => hnodup.1 (heq ▸ hq)⟩, rfl⟩
      obtain ⟨outcomes, t₂, hrun, herror, h₂⟩ :=
        ih hnodup.2 hothers (fun y hy => hrest y hy.1 hy.2) h₁
      obtain ⟨old, hold, -⟩ := (h.changed x hx).bytes
      have hhome : Restore.homeOf? suffix ((x.backup suffix).path root) = some (x.path root) :=
        Spot.homeOf?_backup root (ht.isProper hold).isNamed htext
      rw [stranded_diff htext] at h₂
      refine ⟨⟨x.path root, (x.backup suffix).path root, none⟩ :: outcomes, t₂, ?_, ?_, h₂⟩
      · rw [run_moveAll_cons rest hhome hrename, hrun]
      · exact List.forall_mem_cons.2 ⟨rfl, herror⟩
    | false =>
      have hhome : Restore.homeOf? suffix ((x.backup suffix).path root) = none :=
        if_neg (by simp [htext])
      rw [moveAll_cons_of_none rest hhome]
      refine ih hnodup.2 hbackups (fun y hy hytext => hrest y hy ?_ hytext) h
      rintro rfl
      rw [hytext] at htext
      cases htext

/-- Restoring moves the backups home whose paths are text. -/
theorem BackedUp.run_restore (hsuffix : IsSuffix suffix) (ht : t.WellFormed)
    (hroot : t.resolve .target root = .ok (.found here .directory))
    (hclean : t.IsClean root suffix) (h : BackedUp t t' root here suffix after files) :
    ∃ outcomes t'', (restore root suffix :
        StateM Tree (Except Failure (List RestoreOutcome))).run t' = (.ok outcomes, t'') ∧
      (∀ o ∈ outcomes, o.error = none) ∧
        BackedUp t t'' root here suffix after (stranded root suffix files) := by
  have hroot' := resolve_root_congr h.frame hroot
  obtain ⟨outcomes, t'', hrun, herror, hend⟩ := h.run_moveAll hsuffix ht hroot
    (h.wellFormed.nodup_backups hroot' suffix)
    (fun p hp => h.exists_of_mem_backups ht hroot hclean hp)
    fun x hx htext => h.mem_backups hsuffix ht hroot hx htext
  refine ⟨outcomes, t'', ?_, herror, hend⟩
  rw [Tree.run_restore suffix (kind_eq_directory.2 ⟨here, hroot'⟩), hrun]

def isLink (t : Tree) (p : Path) : Bool :=
  match t.resolve .entry p with
  | .ok (.found _ (.link _)) => true
  | _ => false

theorem Reaches.ne_link (h : t.Reaches root here x) (hfault : x.fault? root = none)
    (hlink : ¬t.isLink (x.path root) = true) (target : Path) :
    t.get? (x.location here) ≠ some (.link target) := by
  intro hget
  apply hlink
  unfold isLink
  rw [h.resolve hfault (.inl rfl), hget]
  rfl

/-- A file can be changed and taken back if nothing stands in the way of its backup. -/
theorem WellFormed.ready (ht : t.WellFormed) (hsuffix : IsSuffix suffix)
    (hroot : t.resolve .target root = .ok (.found here .directory))
    (hclean : t.IsClean root suffix) (hlists : t.Lists Discovery.mayEnter root here x)
    (hlink : ¬t.isLink (Change.backupPath (x.path root) suffix) = true) :
    t.Ready root here suffix x := by
  rw [Spot.path_backup] at hlink
  obtain ⟨bytes, hget⟩ := hlists.isFile
  have hproper := ht.isProper hget
  have hreaches := (ht.reaches_of_get? hroot hget).backup hsuffix.nonempty hsuffix.no_slash
  refine ⟨hlists, ?_⟩
  intro hfault e he
  cases e with
  | directory => rfl
  | link target => exact absurd he (hreaches.ne_link hfault hlink target)
  | file old =>
    have hshort := Path.length_lt_of_fault? (Spot.fault?_eq_none.1 hfault).1
    exact absurd (Spot.suffix_backup hproper suffix)
      (hclean.not_suffix ht hroot ⟨hlists.enter, hshort, old, he⟩)

/-- Changes are prepared for files that the scan selected. -/
theorem mem_selected_of_prepared {selection : Selection} {style : Style} {c : Change}
    (h : c ∈ (t.prepared
      (ScanReport.ofReadings ((t.selected root selection).map t.reading)).plan style).changes) :
    c.path ∈ t.selected root selection := by
  have hplan := (t.sublist_prepared _ style).subset (List.mem_map_of_mem h)
  obtain ⟨reading, hmem, hpath⟩ := ScanReport.exists_reading_of_mem_plan hplan
  obtain ⟨p, hp, hreading⟩ := List.mem_map.1 hmem
  have hc : c.path = p := by
    rw [← hpath, ← hreading]
    rfl
  rw [hc]
  exact hp

end Tree

/-- Each file that changes are made to has one new text. -/
theorem exists_after {changes : List Change} (h : (changes.map Change.path).Nodup) :
    ∃ after : Path → Bytes, ∀ c ∈ changes, c.after = after c.path := by
  induction changes with
  | nil => exact ⟨fun _ => [], fun c hc => absurd hc List.not_mem_nil⟩
  | cons c rest ih =>
    rw [List.map_cons, List.nodup_cons] at h
    obtain ⟨after, hafter⟩ := ih h.2
    refine ⟨Function.update after c.path c.after, List.forall_mem_cons.2 ⟨?_, fun d hd => ?_⟩⟩
    · rw [Function.update_self]
    · have hne : d.path ≠ c.path := fun heq => h.1 (heq ▸ List.mem_map_of_mem hd)
      rw [Function.update_of_ne hne, hafter d hd]

/-- Scanning a root, making the changes of the plan in a style and moving all backups home, with
the changes and what became of them and of the backups. -/
def applyThenRestore {m : Type → Type} [Monad m] [FileSystem m] (root : Path)
    (selection : Selection) (style : Style) :
    m (Except Failure (List Change × List ApplyOutcome × List RestoreOutcome)) := do
  match ← scan root selection with
  | .error f => return .error f
  | .ok report =>
    let prepared ← prepare report.plan style
    let applied ← applyAll selection.suffix prepared.changes
    match ← restore root selection.suffix with
    | .error f => return .error f
    | .ok outcomes => return .ok (prepared.changes, applied, outcomes)

namespace Tree

/-- A changed file has its new text, and its backup the old one. -/
theorem BackedUp.read_of_mem (hsuffix : IsSuffix suffix) (ht : t.WellFormed)
    (hroot : t.resolve .target root = .ok (.found here .directory))
    (h : BackedUp t t' root here suffix after files) (hx : x ∈ files) :
    t'.read (x.path root) = .ok (after (x.path root)) ∧
      t'.read ((x.backup suffix).path root) = t.read (x.path root) := by
  have hchanged := h.changed x hx
  obtain ⟨old, hold, hnew, hbackup⟩ := hchanged.bytes
  have hreaches := ht.reaches_of_get? hroot hold
  have hreaches' : t'.Reaches root here x := hreaches.congr h.frame
  have hreaches'' := hreaches'.backup hsuffix.nonempty hsuffix.no_slash
  unfold read
  rw [hreaches'.file hchanged.fits hnew, hreaches''.file hchanged.backup_fits hbackup,
    hreaches.file hchanged.fits hold]
  exact ⟨rfl, rfl⟩

/-- Writing to the path of a changed file, or of its backup, is writing there. -/
theorem Changed.writable (hsuffix : IsSuffix suffix) (ht : t.WellFormed)
    (hroot : t.resolve .target root = .ok (.found here .directory))
    (h : Changed t t' root here suffix after x) :
    t.writable (x.path root) = .ok (x.location here) ∧
      t.writable ((x.backup suffix).path root) = .ok ((x.backup suffix).location here) := by
  obtain ⟨old, hold, -⟩ := h.bytes
  have hreaches := ht.reaches_of_get? hroot hold
  have hlink : ∀ target, t.get? (x.location here) ≠ some (.link target) := by
    intro target
    rw [hold]
    simp
  have hlink' : ∀ target, t.get? ((x.backup suffix).location here) ≠ some (.link target) := by
    intro target
    rw [h.vacant]
    simp
  have hreaches' := hreaches.backup hsuffix.nonempty hsuffix.no_slash
  constructor
  · exact (hreaches.writable_eq_ok fun _ => hlink).2
      ⟨h.fits, frame_eq_none.2 (.inr ⟨old, hold⟩), rfl⟩
  · exact (hreaches'.writable_eq_ok fun _ => hlink').2
      ⟨h.backup_fits, frame_eq_none.2 (.inl h.vacant), rfl⟩

end Tree

/-- Below a root without backups, where no link is in the place of one, applying the changes of a
scan and then restoring meets no error and gives back the tree just if the paths of all backups that
were made are text. The others are not found again: they and the files that they were made of stay
as the changes left them, and all else is as it was. -/
theorem applyThenRestore_undoes_iff {t : Tree} {root : Path} {selection : Selection} (style : Style)
    (ht : t.WellFormed) (hroot : t.kind root = .ok .directory)
    (hsuffix : Tree.IsSuffix selection.suffix) (hclean : t.IsClean root selection.suffix)
    (hlink : ∀ p ∈ t.selected root selection,
      ¬t.isLink (Change.backupPath p selection.suffix) = true) :
    ∃ changes applied outcomes t', (applyThenRestore root selection style : StateM Tree (Except
        Failure (List Change × List ApplyOutcome × List RestoreOutcome))).run t =
          (.ok (changes, applied, outcomes), t') ∧
      (∀ o ∈ outcomes, o.error = none) ∧
      ((∀ loc, t'.get? loc = t.get? loc) ↔
        ∀ c backup, (c, ApplyOutcome.applied backup) ∈ changes.zip applied →
          Utf8.isValid backup.raw = true) ∧
      (∀ c backup, (c, ApplyOutcome.applied backup) ∈ changes.zip applied →
        Utf8.isValid backup.raw = false →
          t'.read c.path = .ok c.after ∧ t'.read backup = t.read c.path) ∧
      ∀ loc, (∀ c backup, (c, ApplyOutcome.applied backup) ∈ changes.zip applied →
        Utf8.isValid backup.raw = false →
          t.writable c.path ≠ .ok loc ∧ t.writable backup ≠ .ok loc) →
        t'.get? loc = t.get? loc := by
  obtain ⟨here, hresolve⟩ := Tree.kind_eq_directory.1 hroot
  generalize hreport :
    ScanReport.ofReadings ((t.selected root selection).map t.reading) = report
  have hready : ∀ c ∈ (t.prepared report.plan style).changes,
      ∃ x, t.Ready root here selection.suffix x ∧ c.path = x.path root := by
    intro c hc
    rw [← hreport] at hc
    have hselected := Tree.mem_selected_of_prepared hc
    obtain ⟨x, hlists, hx⟩ := (ht.mem_reached hresolve).1 (Tree.mem_selected.1 hselected).1
    rw [hx] at hselected
    exact ⟨x, ht.ready hsuffix hresolve hclean hlists (hlink _ hselected), hx⟩
  have hnodup : ((t.prepared report.plan style).changes.map Change.path).Nodup :=
    (Plan.nodup_paths_ofIssues report.issues).sublist (t.sublist_prepared report.plan style)
  obtain ⟨after, hafter⟩ := exists_after hnodup
  obtain ⟨applied, t₁, files, happly, h₁, hadds⟩ := (Tree.BackedUp.start ht).run_applyAll hsuffix ht
    hresolve hready hafter hnodup fun _ hx => absurd hx (Set.notMem_empty _)
  obtain ⟨outcomes, t₂, hrestore, herror, h₂⟩ := h₁.run_restore hsuffix ht hresolve hclean
  refine ⟨(t.prepared report.plan style).changes, applied, outcomes, t₂, ?_, herror,
    ⟨fun hsame c backup hc => ?_, fun htext loc => h₂.same loc fun x hx => ?_⟩,
    fun c backup hc htext => ?_, fun loc hloc => h₂.same loc fun x hx => ?_⟩
  · unfold applyThenRestore
    rw [Tree.run_bind, Tree.run_scan selection hroot, hreport]
    dsimp only
    rw [Tree.run_bind, Tree.run_prepare]
    dsimp only
    rw [Tree.run_bind, happly]
    dsimp only
    rw [Tree.run_bind, hrestore]
    rfl
  · refine Bool.of_not_eq_false fun htext => ?_
    obtain ⟨x, hx, -, -⟩ := hadds.exists_stranded hc htext
    have hchanged := h₂.changed x hx
    obtain ⟨old, -, -, hbackup⟩ := hchanged.bytes
    rw [hsame, hchanged.vacant] at hbackup
    cases hbackup
  · obtain ⟨c, -, hc⟩ := hadds.exists_of_stranded hx
    have hvalid := htext c _ hc
    rw [hx.2] at hvalid
    cases hvalid
  · obtain ⟨x, hx, hpath, hbackup⟩ := hadds.exists_stranded hc htext
    rw [hafter c (List.of_mem_zip hc).1, hbackup, hpath]
    exact h₂.read_of_mem hsuffix ht hresolve hx
  · obtain ⟨c, hpath, hc⟩ := hadds.exists_of_stranded hx
    have hwritable := (h₂.changed x hx).writable hsuffix ht hresolve
    obtain ⟨hfile, hbackup⟩ := hloc c _ hc hx.2
    rw [hpath, hwritable.1] at hfile
    rw [hwritable.2] at hbackup
    exact ⟨fun heq => hfile (by rw [heq]), fun heq => hbackup (by rw [heq])⟩

def sampleTree : Tree :=
  let source := utf8 "<?php function f(Foo $a = null) \x7b\x7d"
  ⟨[([utf8 "src"], .directory),
    ([utf8 "src", utf8 "a.php"], .file source),
    ([utf8 "src", utf8 "b.php"], .file source),
    ([utf8 "src", utf8 "b.php.bak"], .directory),
    ([utf8 "src", utf8 "l.php"], .link ⟨utf8 "a.php"⟩)]⟩

def sampleSelection : Selection where
  extensions := [utf8 "php"]
  segments := []
  globs := []
  suffix := utf8 ".bak"
  style := .mark

def sampleChange (name : String) : Change where
  path := ⟨utf8 ("src/" ++ name)⟩
  before := utf8 "<?php function f(Foo $a = null) \x7b\x7d"
  after := utf8 "<?php function f(?Foo $a = null) \x7b\x7d"

theorem eq_of_toOption {ε α β : Type} {r : Except ε α × β} {a : α} {b : β}
    (h : (r.1.toOption, r.2) = (some a, b)) : r = (.ok a, b) := by
  obtain ⟨x, y⟩ := r
  cases x with
  | error e => cases h
  | ok x =>
    cases h
    rfl

theorem applyThenRestore_undoes_sampleTree :
    ∃ outcomes t', (applyThenRestore ⟨utf8 "src"⟩ sampleSelection .mark : StateM Tree (Except
        Failure (List Change × List ApplyOutcome × List RestoreOutcome))).run sampleTree =
          (.ok ([sampleChange "a.php", sampleChange "b.php"],
            [.applied ⟨utf8 "src/a.php.bak"⟩, .backupFailed ⟨utf8 "src/b.php"⟩ .isADirectory],
            outcomes), t') ∧
      (∀ o ∈ outcomes, o.error = none) ∧ ∀ loc, t'.get? loc = sampleTree.get? loc := by
  have hclean : sampleTree.IsClean ⟨utf8 "src"⟩ sampleSelection.suffix := by
    have hreached : ∀ p ∈ sampleTree.reached ⟨utf8 "src"⟩, p.fileName? = some (utf8 "a.php") ∨
        p.fileName? = some (utf8 "b.php") := by decide
    intro p hp name hname hsuffix
    rcases hreached p hp with h | h
    all_goals
      rw [h, Option.some.injEq] at hname
      subst hname
      revert hsuffix
      decide
  obtain ⟨changes, applied, outcomes, t', hrun, herror, hiff, -⟩ :=
    applyThenRestore_undoes_iff .mark (by decide) (by decide)
      ⟨by decide, by decide⟩ hclean (by decide)
  have happlied : ((applyThenRestore ⟨utf8 "src"⟩ sampleSelection .mark : StateM Tree (Except
      Failure (List Change × List ApplyOutcome × List RestoreOutcome))).run
        sampleTree).1.toOption.map (fun r => (r.1, r.2.1)) =
      some ([sampleChange "a.php", sampleChange "b.php"],
        [.applied ⟨utf8 "src/a.php.bak"⟩,
          .backupFailed ⟨utf8 "src/b.php"⟩ .isADirectory]) := by decide +kernel
  rw [hrun] at happlied
  obtain ⟨rfl, rfl⟩ := Prod.mk.inj (Option.some.inj happlied)
  refine ⟨outcomes, t', hrun, herror, hiff.2 fun c backup hc => ?_⟩
  rcases List.mem_cons.1 hc with heq | hc
  · cases heq
    decide
  · cases List.mem_singleton.1 hc

def rawNameTree : Tree :=
  ⟨[([0xff :: utf8 ".php"], .file (utf8 "<?php fn(Foo $a = null) => 1;"))]⟩

/-- A backup whose name is not text is not found again, and the change of its file stays. -/
theorem applyThenRestore_rawNameTree :
    (rawNameTree.WellFormed ∧ rawNameTree.kind ⟨utf8 "."⟩ = .ok .directory ∧
      Tree.IsSuffix sampleSelection.suffix ∧
      rawNameTree.IsClean ⟨utf8 "."⟩ sampleSelection.suffix ∧
      ∀ p ∈ rawNameTree.selected ⟨utf8 "."⟩ sampleSelection,
        ¬rawNameTree.isLink (Change.backupPath p sampleSelection.suffix) = true) ∧
    ∃ changes applied t', (applyThenRestore ⟨utf8 "."⟩ sampleSelection .mark : StateM Tree (Except
        Failure (List Change × List ApplyOutcome × List RestoreOutcome))).run rawNameTree =
          (.ok (changes, applied, []), t') ∧
      t'.get? [0xff :: utf8 ".php"] = some (.file (utf8 "<?php fn(?Foo $a = null) => 1;")) ∧
      t'.get? [0xff :: utf8 ".php.bak"] = rawNameTree.get? [0xff :: utf8 ".php"] := by
  refine ⟨⟨by decide, by decide, ⟨by decide, by decide⟩, ?_, by decide⟩, ?_⟩
  · have hreached : ∀ p ∈ rawNameTree.reached ⟨utf8 "."⟩,
        p.fileName? = some (0xff :: utf8 ".php") := by decide
    intro p hp name hname hsuffix
    rw [hreached p hp, Option.some.injEq] at hname
    subst hname
    revert hsuffix
    decide
  · have hrun : (applyThenRestore ⟨utf8 "."⟩ sampleSelection .mark : StateM Tree (Except
        Failure (List Change × List ApplyOutcome × List RestoreOutcome))).run rawNameTree =
          (.ok ([⟨⟨utf8 "./" ++ 0xff :: utf8 ".php"⟩, utf8 "<?php fn(Foo $a = null) => 1;",
              utf8 "<?php fn(?Foo $a = null) => 1;"⟩],
            [.applied ⟨utf8 "./" ++ 0xff :: utf8 ".php.bak"⟩], []),
          ⟨[([0xff :: utf8 ".php"], .file (utf8 "<?php fn(?Foo $a = null) => 1;")),
            ([0xff :: utf8 ".php.bak"], .file (utf8 "<?php fn(Foo $a = null) => 1;"))]⟩) :=
      eq_of_toOption (by decide +kernel)
    exact ⟨_, _, _, hrun, by decide, by decide⟩

end ExplicitNull
