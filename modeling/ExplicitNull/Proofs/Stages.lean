import ExplicitNull.Proofs.Destinations
import ExplicitNull.Proofs.Runs

/-!
Making changes one after another, wherever their backups go. A change that is made sets two
locations, those of its file and of its backup, and both are known from the first tree. At every
stage all changes made so far have their backups and their new texts if and only if the places of
the changes are apart.
-/
namespace ExplicitNull

namespace Tree

variable {t s s' : Tree} {suffix : Bytes} {c d : Change} {p : Path}
  {file backup file' backup' loc : Location} {bytes cur : Bytes}

/-- The file of a change is at one location, and its backup goes to another, or to the same. -/
structure Placed (t : Tree) (suffix : Bytes) (c : Change) (file backup : Location) : Prop where
  file : t.file c.path = .ok (file, c.before)
  backup : t.writable (Change.backupPath c.path suffix) = .ok backup

theorem Placed.file_unique (h : t.Placed suffix c file backup)
    (hfile : t.file c.path = .ok (file', bytes)) : file = file' := by
  have heq := h.file.symm.trans hfile
  cases heq
  rfl

theorem Placed.backup_unique (h : t.Placed suffix c file backup)
    (h' : t.Placed suffix c file' backup') : backup = backup' := by
  have heq := h.backup.symm.trans h'.backup
  cases heq
  rfl

/-- A change sets the locations of its file and of its backup, or nothing. -/
theorem run_applyChange_cases (hframe : t.frame = s.frame)
    (hfile : t.file c.path = .ok (file, c.before)) (hcur : s.get? file = some (.file cur)) :
    (∀ backup, ¬t.Placed suffix c file backup) ∧
        (∃ e, (applyChange c suffix : StateM Tree ApplyOutcome).run s =
          (.backupFailed c.path e, s)) ∨
      ∃ backup s', t.Placed suffix c file backup ∧
        (applyChange c suffix : StateM Tree ApplyOutcome).run s =
          (.applied (Change.backupPath c.path suffix), s') ∧ s.frame = s'.frame ∧
        ∀ l, s'.get? l = if l = file then some (.file c.after)
          else if l = backup then some (.file cur) else s.get? l := by
  have hplace : s.writable c.path = .ok file := writable_congr hframe (file_eq_ok.1 hfile).1
  have hread : s.file c.path = .ok (file, cur) := file_eq_ok.2 ⟨hplace, hcur⟩
  cases hbackup : s.writable (Change.backupPath c.path suffix) with
  | error e =>
    left
    have hcopy : s.copy c.path (Change.backupPath c.path suffix) = .error e := by
      unfold copy
      rw [hread, hbackup]
      rfl
    refine ⟨fun backup h => ?_, e, run_applyChange_of_error hcopy⟩
    rw [writable_congr hframe h.backup] at hbackup
    cases hbackup
  | ok backup =>
    right
    have hnone : s.frame backup = none := frame_of_writable hbackup
    generalize hcopied : s.set backup (.file (if backup = file then [] else cur)) = s₁
    have hsame : s.frame = s₁.frame := by
      rw [← hcopied, frame_set_file hnone]
    have hcopy : s.copy c.path (Change.backupPath c.path suffix) = .ok s₁ := by
      unfold copy
      rw [hread, hbackup, ← hcopied]
      rfl
    have hwritable : s₁.writable c.path = .ok file := writable_congr hsame hplace
    have hwrite : s₁.write c.path c.after = .ok (s₁.set file (.file c.after)) := by
      unfold write
      rw [hwritable]
      rfl
    have hframe' := frame_of_writable hwritable
    refine ⟨backup, _, ⟨hfile, writable_congr hframe.symm hbackup⟩,
      run_applyChange_of_ok hcopy hwrite, hsame.trans (frame_set_file hframe' _).symm, ?_⟩
    intro l
    rw [get?_set s₁ (ne_nil_of_frame hframe'), ← hcopied, get?_set s (ne_nil_of_frame hnone)]
    by_cases hl : l = file
    · rw [if_pos hl, if_pos hl]
    · rw [if_neg hl, if_neg hl]
      by_cases hl' : l = backup
      · rw [if_pos hl', if_pos hl', if_neg fun heq => hl (hl'.trans heq)]
      · rw [if_neg hl', if_neg hl']

/-- The tree when some changes have been tried. -/
structure Stage (t s : Tree) (suffix : Bytes) (done : List Change) (outcomes : List ApplyOutcome) :
    Prop where
  run : (applyAll suffix done : StateM Tree (List ApplyOutcome)).run t = (outcomes, s)
  length : done.length = outcomes.length
  frame : t.frame = s.frame
  isFile : ∀ loc bytes, t.get? loc = some (.file bytes) → ∃ cur, s.get? loc = some (.file cur)
  applied : ∀ c p, (c, ApplyOutcome.applied p) ∈ done.zip outcomes ↔
    c ∈ done ∧ p = Change.backupPath c.path suffix ∧ ∃ file backup, t.Placed suffix c file backup
  same : ∀ loc, (∀ c ∈ done, ∀ file backup, t.Placed suffix c file backup →
    loc ≠ file ∧ loc ≠ backup) → s.get? loc = t.get? loc

theorem Stage.start (t : Tree) (suffix : Bytes) : Stage t t suffix [] [] where
  run := rfl
  length := rfl
  frame := rfl
  isFile _ bytes h := ⟨bytes, h⟩
  applied _ _ := by simp
  same _ _ := rfl

theorem run_applyAll_concat {done : List Change} {outcomes : List ApplyOutcome}
    {outcome : ApplyOutcome}
    (hdone : (applyAll suffix done : StateM Tree (List ApplyOutcome)).run t = (outcomes, s))
    (hc : (applyChange c suffix : StateM Tree ApplyOutcome).run s = (outcome, s')) :
    (applyAll suffix (done ++ [c]) : StateM Tree (List ApplyOutcome)).run t =
      (outcomes ++ [outcome], s') := by
  induction done generalizing t outcomes with
  | nil =>
    cases hdone
    rw [List.nil_append, run_applyAll_cons, hc]
    rfl
  | cons c' done ih =>
    rw [run_applyAll_cons] at hdone
    rw [List.cons_append, run_applyAll_cons]
    generalize (applyChange c' suffix : StateM Tree ApplyOutcome).run t = first at hdone
    obtain ⟨outcome', t₁⟩ := first
    dsimp only at hdone ⊢
    generalize hrest : (applyAll suffix done : StateM Tree (List ApplyOutcome)).run t₁ = rest
      at hdone
    obtain ⟨outcomes', s₁⟩ := rest
    cases hdone
    rw [ih hrest]
    rfl

variable {done : List Change} {outcomes : List ApplyOutcome}

theorem Stage.mem_zip_concat (h : Stage t s suffix done outcomes) {o outcome : ApplyOutcome} :
    (d, o) ∈ (done ++ [c]).zip (outcomes ++ [outcome]) ↔
      (d, o) ∈ done.zip outcomes ∨ d = c ∧ o = outcome := by
  rw [List.zip_append h.length, List.mem_append]
  simp

/-- A change without a place for its backup is not made. -/
theorem Stage.skip (h : Stage t s suffix done outcomes)
    (hnone : ∀ file backup, ¬t.Placed suffix c file backup) {e : FileError}
    (hrun : (applyChange c suffix : StateM Tree ApplyOutcome).run s =
      (.backupFailed c.path e, s)) :
    Stage t s suffix (done ++ [c]) (outcomes ++ [.backupFailed c.path e]) where
  run := run_applyAll_concat h.run hrun
  length := by simp [h.length]
  frame := h.frame
  isFile := h.isFile
  applied d p := by
    rw [h.mem_zip_concat, h.applied]
    simp only [List.mem_append, List.mem_singleton, reduceCtorEq, and_false, or_false]
    constructor
    · exact fun hdone => ⟨.inl hdone.1, hdone.2⟩
    · rintro ⟨hdone | heq, hpath, file, backup, hplaced⟩
      · exact ⟨hdone, hpath, file, backup, hplaced⟩
      · exact absurd (heq ▸ hplaced) (hnone file backup)
  same loc hloc := h.same loc fun d hd => hloc d (List.mem_append_left _ hd)

/-- A change that is made sets its two locations. -/
theorem Stage.make (h : Stage t s suffix done outcomes) (hplaced : t.Placed suffix c file backup)
    (hrun : (applyChange c suffix : StateM Tree ApplyOutcome).run s =
      (.applied (Change.backupPath c.path suffix), s')) (hframe : s.frame = s'.frame)
    (hget : ∀ l, s'.get? l = if l = file then some (.file c.after)
      else if l = backup then some (.file cur) else s.get? l) :
    Stage t s' suffix (done ++ [c])
      (outcomes ++ [.applied (Change.backupPath c.path suffix)]) where
  run := run_applyAll_concat h.run hrun
  length := by simp [h.length]
  frame := h.frame.trans hframe
  isFile loc bytes hbytes := by
    rw [hget]
    split
    · exact ⟨_, rfl⟩
    split
    · exact ⟨_, rfl⟩
    · exact h.isFile loc bytes hbytes
  applied d p := by
    rw [h.mem_zip_concat, h.applied]
    simp only [List.mem_append, List.mem_singleton, ApplyOutcome.applied.injEq]
    constructor
    · rintro (hdone | ⟨heq, hpath⟩)
      · exact ⟨.inl hdone.1, hdone.2⟩
      · subst heq
        exact ⟨.inr rfl, hpath, file, backup, hplaced⟩
    · rintro ⟨hdone | heq, hpath, hplaced'⟩
      · exact .inl ⟨hdone, hpath, hplaced'⟩
      · subst heq
        exact .inr ⟨rfl, hpath⟩
  same loc hloc := by
    obtain ⟨hne, hne'⟩ := hloc c (by simp) file backup hplaced
    rw [hget, if_neg hne, if_neg hne']
    exact h.same loc fun d hd => hloc d (List.mem_append_left _ hd)

/-- Every change made so far has its backup, and its file has the new text. -/
def Secures (t s : Tree) (suffix : Bytes) (done : List Change) : Prop :=
  ∀ c ∈ done, ∀ file backup, t.Placed suffix c file backup →
    s.get? backup = some (.file c.before) ∧ s.get? file = some (.file c.after)

/-- A later change does no harm to an earlier one, nor this to it. -/
def Spares (t : Tree) (suffix : Bytes) (c d : Change) : Prop :=
  ∀ file backup file' backup', t.Placed suffix c file backup → t.Placed suffix d file' backup' →
    backup ≠ file' ∧ (backup' = backup → d.before = c.before) ∧
      (backup' = file → d.before = c.after)

/-- What one more change does to those made so far. -/
theorem Stage.secures_concat_iff (h : Stage t s suffix done outcomes)
    (hsecures : t.Secures s suffix done) (hplaced : t.Placed suffix d file' backup')
    (hchanged : d.after ≠ d.before)
    (hdistinct : ∀ c ∈ done, ∀ file backup, t.Placed suffix c file backup → file ≠ file')
    (hcur : s.get? file' = some (.file cur))
    (hget : ∀ l, s'.get? l = if l = file' then some (.file d.after)
      else if l = backup' then some (.file cur) else s.get? l) :
    t.Secures s' suffix (done ++ [d]) ↔ backup' ≠ file' ∧ ∀ c ∈ done, t.Spares suffix c d := by
  have hinjective : ∀ {l : Location} {u : Tree} {a b : Bytes}, u.get? l = some (.file a) →
      u.get? l = some (.file b) → a = b :=
    fun ha hb => Entry.file.inj (Option.some.inj (ha.symm.trans hb))
  constructor
  · intro hall
    obtain ⟨hbackup', hfile'⟩ := hall d (by simp) file' backup' hplaced
    have hown : backup' ≠ file' := by
      intro heq
      rw [heq] at hbackup'
      exact hchanged (hinjective hfile' hbackup')
    have hbytes : cur = d.before := by
      have hset := hget backup'
      rw [if_neg hown, if_pos rfl] at hset
      exact hinjective hset hbackup'
    refine ⟨hown, fun c hc file backup file₁ backup₁ hc' hd' => ?_⟩
    obtain rfl : file' = file₁ := hplaced.file_unique hd'.file
    obtain rfl : backup' = backup₁ := hplaced.backup_unique hd'
    obtain ⟨hold, -⟩ := hsecures c hc file backup hc'
    obtain ⟨hnew, hnew'⟩ := hall c (List.mem_append_left _ hc) file backup hc'
    refine ⟨fun heq => ?_, fun heq => ?_, fun heq => ?_⟩
    · -- The file had the bytes of the earlier backup, and now that backup has its new text.
      rw [heq] at hold hnew
      have hbefore : c.before = d.before := (hinjective hold hcur).trans hbytes
      exact hchanged ((hinjective hfile' hnew).trans hbefore)
    · rw [heq] at hbackup'
      exact hinjective hbackup' hnew
    · rw [heq] at hbackup'
      exact hinjective hbackup' hnew'
  · intro ⟨hown, hspares⟩
    have hsame : s.get? file' = t.get? file' := h.same file' fun c hc file backup hc' =>
      ⟨(hdistinct c hc file backup hc').symm, fun heq =>
        (hspares c hc file backup file' backup' hc' hplaced).1 heq.symm⟩
    have hbytes : cur = d.before :=
      hinjective hcur (hsame.trans (file_eq_ok.1 hplaced.file).2)
    intro c hc file backup hc'
    rcases List.mem_append.1 hc with hc | hc
    · obtain ⟨hne, hbackup, hfile⟩ := hspares c hc file backup file' backup' hc' hplaced
      obtain ⟨hold, hold'⟩ := hsecures c hc file backup hc'
      rw [hget, hget, if_neg hne, if_neg (hdistinct c hc file backup hc')]
      constructor
      · split
        · next heq => rw [hbytes, hbackup heq.symm]
        · exact hold
      · split
        · next heq => rw [hbytes, hfile heq.symm]
        · exact hold'
    · rw [List.mem_singleton.1 hc] at hc' ⊢
      obtain rfl : file' = file := hplaced.file_unique hc'.file
      obtain rfl : backup' = backup := hplaced.backup_unique hc'
      rw [hget, hget, if_neg hown, if_pos rfl, if_pos rfl, hbytes]
      exact ⟨rfl, rfl⟩

theorem Placed.read (h : t.Placed suffix c file backup) : t.read c.path = .ok c.before := by
  unfold Tree.read
  rw [h.file]
  rfl

def Safe (t : Tree) (suffix : Bytes) (changes : List Change) : Prop :=
  let (outcomes, s) := (applyAll suffix changes : StateM Tree (List ApplyOutcome)).run t
  ∀ c backup, (c, ApplyOutcome.applied backup) ∈ changes.zip outcomes →
    s.read backup = t.read c.path ∧ s.read c.path = .ok c.after

theorem Stage.safe_iff (h : Stage t s suffix done outcomes) :
    t.Safe suffix done ↔ t.Secures s suffix done := by
  have hread : ∀ {c file backup}, t.Placed suffix c file backup →
      (s.read (Change.backupPath c.path suffix) = t.read c.path ↔
        s.get? backup = some (.file c.before)) ∧
      (s.read c.path = .ok c.after ↔ s.get? file = some (.file c.after)) := by
    intro c file backup hplaced
    rw [hplaced.read]
    exact ⟨read_eq_ok (writable_congr h.frame hplaced.backup),
      read_eq_ok (writable_congr h.frame (file_eq_ok.1 hplaced.file).1)⟩
  unfold Safe
  rw [h.run]
  constructor
  · intro hsafe c hc file backup hplaced
    have hmade := hsafe c _ ((h.applied c _).2 ⟨hc, rfl, file, backup, hplaced⟩)
    exact ⟨(hread hplaced).1.1 hmade.1, (hread hplaced).2.1 hmade.2⟩
  · intro hsecures c p happlied
    obtain ⟨hc, hp, file, backup, hplaced⟩ := (h.applied c p).1 happlied
    obtain ⟨hbackup, hfile⟩ := hsecures c hc file backup hplaced
    rw [hp]
    exact ⟨(hread hplaced).1.2 hbackup, (hread hplaced).2.2 hfile⟩

/-- The places of changes, given in their order, are apart. -/
structure Apart (t : Tree) (suffix : Bytes) (changes : List Change) : Prop where
  own : ∀ c ∈ changes, ∀ file backup, t.Placed suffix c file backup → backup ≠ file
  spares : changes.Pairwise (t.Spares suffix)

theorem apart_concat : t.Apart suffix (done ++ [d]) ↔ t.Apart suffix done ∧
    (∀ file backup, t.Placed suffix d file backup → backup ≠ file) ∧
      ∀ c ∈ done, t.Spares suffix c d := by
  constructor
  · intro h
    obtain ⟨hdone, -, hspares⟩ := List.pairwise_append.1 h.spares
    exact ⟨⟨fun c hc => h.own c (List.mem_append_left _ hc), hdone⟩, h.own d (by simp),
      fun c hc => hspares c hc d (by simp)⟩
  · intro ⟨hdone, hown, hspares⟩
    constructor
    · intro c hc
      rcases List.mem_append.1 hc with hc | hc
      · exact hdone.own c hc
      · rw [List.mem_singleton.1 hc]
        exact hown
    · refine List.pairwise_append.2 ⟨hdone.spares, List.pairwise_singleton _ d, ?_⟩
      intro c hc d' hd'
      rw [List.mem_singleton.1 hd']
      exact hspares c hc

/-- Changes that can come of a tree: each gives another text to a file of its own. -/
structure Sound (t : Tree) (changes : List Change) : Prop where
  file : ∀ c ∈ changes, ∃ file, t.file c.path = .ok (file, c.before)
  changed : ∀ c ∈ changes, c.after ≠ c.before
  distinct : changes.Pairwise fun c d =>
    ∀ file, t.writable c.path = .ok file → t.writable d.path ≠ .ok file

theorem Sound.of_concat (h : t.Sound (done ++ [d])) : t.Sound done where
  file c hc := h.file c (List.mem_append_left _ hc)
  changed c hc := h.changed c (List.mem_append_left _ hc)
  distinct := (List.pairwise_append.1 h.distinct).1

/-- One more change is tried, and keeps all changes safe if it is apart from them. -/
theorem Stage.exists_next (h : Stage t s suffix done outcomes) (hsound : t.Sound (done ++ [d])) :
    ∃ outcome s', Stage t s' suffix (done ++ [d]) (outcomes ++ [outcome]) ∧
      (t.Safe suffix done → (t.Safe suffix (done ++ [d]) ↔
        (∀ file backup, t.Placed suffix d file backup → backup ≠ file) ∧
          ∀ c ∈ done, t.Spares suffix c d)) := by
  obtain ⟨file', hfile'⟩ := hsound.file d (by simp)
  obtain ⟨hwritable, hget⟩ := file_eq_ok.1 hfile'
  obtain ⟨cur, hcur⟩ := h.isFile _ _ hget
  have hdistinct : ∀ c ∈ done, ∀ file backup, t.Placed suffix c file backup → file ≠ file' := by
    intro c hc file backup hplaced heq
    have hpair := (List.pairwise_append.1 hsound.distinct).2.2 c hc d (by simp)
    exact hpair file (file_eq_ok.1 hplaced.file).1 (heq ▸ hwritable)
  rcases run_applyChange_cases h.frame hfile' hcur with
    ⟨hnone, e, hrun⟩ | ⟨backup', s', hplaced', hrun, hframe, hget'⟩
  · have hnone' : ∀ file backup, ¬t.Placed suffix d file backup := fun file backup hplaced =>
      hnone backup (hplaced.file_unique hfile' ▸ hplaced)
    have hnext := h.skip hnone' hrun
    refine ⟨_, s, hnext, fun hsafe => ?_⟩
    rw [hnext.safe_iff]
    constructor
    · exact fun _ => ⟨fun file backup hplaced => absurd hplaced (hnone' file backup),
        fun c _ file backup file₁ backup₁ _ hplaced => absurd hplaced (hnone' file₁ backup₁)⟩
    · intro _ c hc file backup hplaced
      rcases List.mem_append.1 hc with hc | hc
      · exact h.safe_iff.1 hsafe c hc file backup hplaced
      · rw [List.mem_singleton.1 hc] at hplaced
        exact absurd hplaced (hnone' file backup)
  · have hnext := h.make hplaced' hrun hframe hget'
    refine ⟨_, s', hnext, fun hsafe => ?_⟩
    rw [hnext.safe_iff, h.secures_concat_iff (h.safe_iff.1 hsafe) hplaced'
      (hsound.changed d (by simp)) hdistinct hcur hget']
    refine and_congr_left' ⟨fun hown file backup hplaced => ?_, fun hown => hown _ _ hplaced'⟩
    obtain rfl : file = file' := hplaced.file_unique hfile'
    obtain rfl : backup = backup' := hplaced.backup_unique hplaced'
    exact hown

/-- All stages of a run are safe if the places of the changes are apart, and only then. -/
theorem Sound.exists_stage {changes : List Change} (h : t.Sound changes) (suffix : Bytes) :
    ∃ s outcomes, Stage t s suffix changes outcomes ∧
      ((∀ done, done <+: changes → t.Safe suffix done) ↔ t.Apart suffix changes) := by
  induction changes using List.reverseRecOn with
  | nil =>
    refine ⟨t, [], .start t suffix, fun _ => ⟨by simp, .nil⟩, fun _ done hdone => ?_⟩
    rw [List.prefix_nil.1 hdone]
    exact (Stage.start t suffix).safe_iff.2 fun c hc => absurd hc List.not_mem_nil
  | append_singleton done d ih =>
    obtain ⟨s, outcomes, hstage, hiff⟩ := ih h.of_concat
    obtain ⟨outcome, s', hnext, hstep⟩ := hstage.exists_next h
    refine ⟨s', _, hnext, ?_⟩
    rw [apart_concat, ← hiff]
    constructor
    · intro hall
      have hbefore : ∀ done', done' <+: done → t.Safe suffix done' := fun done' hstart =>
        hall done' (hstart.trans (List.prefix_append ..))
      exact ⟨hbefore, (hstep (hbefore done List.prefix_rfl)).1 (hall _ List.prefix_rfl)⟩
    · intro ⟨hbefore, hlast⟩ done' hdone'
      rcases List.prefix_concat_iff.1 hdone' with heq | hstart
      · rw [heq]
        exact (hstep (hbefore done List.prefix_rfl)).2 hlast
      · exact hbefore done' hstart

end Tree

end ExplicitNull
