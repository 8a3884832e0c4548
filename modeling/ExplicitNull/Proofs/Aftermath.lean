import ExplicitNull.Proofs.Orders
import ExplicitNull.Proofs.Restoring

/-!
The tree after a run in which every change was made. Changes come in the order of their paths, so
that a file is changed before the file that has the place of its backup. In the end each changed file
has its new text; the place of a backup, unless it is a changed file too, has the old text of one;
and nothing else has changed.
-/
namespace ExplicitNull

structure Edit where
  spot : Spot
  before : Bytes
  after : Bytes

def Edit.change (root : Path) (e : Edit) : Change := ⟨e.spot.path root, e.before, e.after⟩

namespace Tree

variable {t t' t'' : Tree} {root : Path} {here : Location} {suffix : Bytes} {done : List Edit}
  {d e : Edit} {x : Spot} {bytes : Bytes}

/-- A tree in which some edits were made, and all else is as it was. -/
structure Aftermath (t t' : Tree) (root : Path) (here : Location) (suffix : Bytes)
    (done : List Edit) : Prop where
  wellFormed : t'.WellFormed
  frame : t.frame = t'.frame
  fits : ∀ e ∈ done, (e.spot.backup suffix).fault? root = none
  file : ∀ e ∈ done, t'.get? (e.spot.location here) = some (.file e.after)
  backup : ∀ e ∈ done, (∀ d ∈ done, d.spot ≠ e.spot.backup suffix) →
    ∃ d ∈ done, t'.get? ((e.spot.backup suffix).location here) = some (.file d.before)
  same : ∀ loc, (∀ e ∈ done, loc ≠ e.spot.location here ∧
    loc ≠ (e.spot.backup suffix).location here) → t'.get? loc = t.get? loc

theorem Aftermath.start (ht : t.WellFormed) : Aftermath t t root here suffix [] where
  wellFormed := ht
  frame := rfl
  fits _ he := absurd he List.not_mem_nil
  file _ he := absurd he List.not_mem_nil
  backup _ he := absurd he List.not_mem_nil
  same _ _ := rfl

theorem Aftermath.get?_of_ne (h : Aftermath t t' root here suffix done)
    (hx : ∀ e ∈ done, x ≠ e.spot ∧ x ≠ e.spot.backup suffix) :
    t'.get? (x.location here) = t.get? (x.location here) :=
  h.same _ fun e he => ⟨fun heq => (hx e he).1 (Spot.location_injective heq),
    fun heq => (hx e he).2 (Spot.location_injective heq)⟩

/-- Before its turn a file has its own old text, or that of another if backups went there. -/
theorem Aftermath.exists_before (h : Aftermath t t' root here suffix done)
    (hfile : t.get? (e.spot.location here) = some (.file e.before))
    (hnew : ∀ d ∈ done, d.spot ≠ e.spot) :
    ∃ d ∈ done ++ [e], t'.get? (e.spot.location here) = some (.file d.before) := by
  by_cases hbackup : ∃ d ∈ done, e.spot = d.spot.backup suffix
  · obtain ⟨d, hd, heq⟩ := hbackup
    obtain ⟨d', hd', hget⟩ := h.backup d hd fun d' hd' => heq ▸ hnew d' hd'
    exact ⟨d', List.mem_append_left _ hd', heq ▸ hget⟩
  · refine ⟨e, by simp, ?_⟩
    rw [h.get?_of_ne fun d hd => ⟨(hnew d hd).symm, fun heq => hbackup ⟨d, hd, heq⟩⟩, hfile]

/-- One more edit, with whatever text its file has by then. -/
theorem Aftermath.next (hsuffix : IsSuffix suffix) (ht : t.WellFormed)
    (h : Aftermath t t' root here suffix done)
    (hfile : t.get? (e.spot.location here) = some (.file e.before))
    (hne : ∀ d ∈ done, d.spot ≠ e.spot ∧ d.spot ≠ e.spot.backup suffix)
    (hfits : (e.spot.backup suffix).fault? root = none)
    (hframe : t'.frame ((e.spot.backup suffix).location here) = none)
    (hd : d ∈ done ++ [e]) (hget : t'.get? (e.spot.location here) = some (.file d.before)) :
    Aftermath t (t'.changeAt here suffix e.spot d.before e.after) root here suffix
      (done ++ [e]) := by
  have hframe' : t'.frame (e.spot.location here) = none := frame_eq_none.2 (.inr ⟨_, hget⟩)
  constructor
  · have hproper := (ht.isProper hfile).backup hsuffix.nonempty hsuffix.no_slash
    apply h.wellFormed.changeAt hframe' hframe
    · exact get?_directory_congr h.frame (ht.get?_above hfile)
    · exact ht.isEntryName _ _ hfile e.spot.name (by simp [Spot.location])
    · exact Spot.isEntryName_of_fault? hproper hfits
  · exact h.frame.trans (frame_changeAt hframe' hframe _ _).symm
  · intro c hc
    rcases List.mem_append.1 hc with hc | hc
    · exact h.fits c hc
    · rw [List.mem_singleton.1 hc]
      exact hfits
  · intro c hc
    rw [get?_changeAt]
    rcases List.mem_append.1 hc with hc | hc
    · rw [if_neg fun heq => (hne c hc).1 (Spot.location_injective heq),
        if_neg fun heq => (hne c hc).2 (Spot.location_injective heq)]
      exact h.file c hc
    · rw [List.mem_singleton.1 hc, if_pos rfl]
  · intro c hc hclear
    rw [get?_changeAt, if_neg fun heq => hclear e (by simp) (Spot.location_injective heq).symm]
    by_cases heq : c.spot = e.spot
    · exact ⟨d, hd, by rw [heq, if_pos rfl]⟩
    · rw [if_neg fun h => heq (Spot.backup_injective (Spot.location_injective h))]
      have hc' : c ∈ done := by
        refine (List.mem_append.1 hc).resolve_right fun hmem => heq ?_
        rw [List.mem_singleton.1 hmem]
      obtain ⟨d', hd', hold⟩ := h.backup c hc' fun d' hd' => hclear d' (List.mem_append_left _ hd')
      exact ⟨d', List.mem_append_left _ hd', hold⟩
  · intro loc hloc
    obtain ⟨hne, hne'⟩ := hloc e (by simp)
    rw [get?_changeAt, if_neg hne, if_neg hne']
    exact h.same loc fun d hd => hloc d (List.mem_append_left _ hd)

/-- A file below a root that can be edited, with no link where its backup goes. -/
structure Editable (t : Tree) (root : Path) (here : Location) (suffix : Bytes) (e : Edit) :
    Prop where
  file : t.get? (e.spot.location here) = some (.file e.before)
  no_link : ¬t.isLink ((e.spot.backup suffix).path root) = true

section Run

variable (hsuffix : IsSuffix suffix) (ht : t.WellFormed)
  (hroot : t.resolve .target root = .ok (.found here .directory))

include hsuffix ht hroot

theorem Aftermath.run_applyChange (h : Aftermath t t' root here suffix done)
    (he : t.Editable root here suffix e)
    (hne : ∀ d ∈ done, d.spot ≠ e.spot ∧ d.spot ≠ e.spot.backup suffix) {p : Path}
    (hrun : (applyChange (e.change root) suffix : StateM Tree ApplyOutcome).run t' =
      (.applied p, t'')) : Aftermath t t'' root here suffix (done ++ [e]) := by
  obtain ⟨d, hd, hget⟩ := h.exists_before he.file fun d hd => (hne d hd).1
  have hreaches := ht.reaches_of_get? hroot he.file
  have hbackup := hreaches.backup hsuffix.nonempty hsuffix.no_slash
  have hlink : (e.spot.backup suffix).fault? root = none → ∀ target,
      t'.get? ((e.spot.backup suffix).location here) ≠ some (.link target) :=
    fun hfault target hget => hbackup.ne_link hfault he.no_link target
      (get?_link_congr h.frame.symm hget)
  have hc : (e.change root).path = e.spot.path root := rfl
  rcases (hreaches.congr h.frame).run_applyChange_cases hsuffix hget hlink hc with
    ⟨error, hfailed⟩ | ⟨-, hfault, hframe, happlied⟩
  · rw [hfailed] at hrun
    cases hrun
  · rw [happlied] at hrun
    cases hrun
    exact h.next hsuffix ht he.file hne hfault hframe hd hget

/-- All edits in an order in which no file has the place of the backup of a later one. -/
theorem Aftermath.run_applyAll {edits : List Edit} {outcomes : List ApplyOutcome}
    (h : Aftermath t t' root here suffix done)
    (hedits : ∀ e ∈ edits, t.Editable root here suffix e)
    (horder : (done ++ edits).Pairwise fun d e => d.spot ≠ e.spot ∧ d.spot ≠ e.spot.backup suffix)
    (hrun : (applyAll suffix (edits.map (Edit.change root)) :
      StateM Tree (List ApplyOutcome)).run t' = (outcomes, t''))
    (happlied : ∀ o ∈ outcomes, ∃ p, o = .applied p) :
    Aftermath t t'' root here suffix (done ++ edits) := by
  induction edits generalizing t' done outcomes with
  | nil =>
    cases hrun
    rwa [List.append_nil]
  | cons e edits ih =>
    rw [List.map_cons, run_applyAll_cons] at hrun
    generalize hfirst : (applyChange (e.change root) suffix : StateM Tree ApplyOutcome).run t' =
      first at hrun
    obtain ⟨outcome, t₁⟩ := first
    dsimp only at hrun
    generalize hlater : (applyAll suffix (edits.map (Edit.change root)) :
      StateM Tree (List ApplyOutcome)).run t₁ = later at hrun
    obtain ⟨outcomes', t₂⟩ := later
    cases hrun
    obtain ⟨p, rfl⟩ := happlied outcome (List.mem_cons_self ..)
    have hne := fun d hd => (List.pairwise_append.1 horder).2.2 d hd e (List.mem_cons_self ..)
    have h₁ := h.run_applyChange hsuffix ht hroot (hedits e (List.mem_cons_self ..)) hne hfirst
    rw [← List.singleton_append, ← List.append_assoc] at horder ⊢
    exact ih h₁ (fun e' he' => hedits e' (List.mem_cons_of_mem e he')) horder hlater
      fun o ho => happlied o (List.mem_cons_of_mem _ ho)

end Run

/-- What a file of the tree has in the end. -/
theorem Aftermath.get?_cases (h : Aftermath t t' root here suffix done)
    (hget : t'.get? (x.location here) = some (.file bytes)) :
    (∃ e ∈ done, x = e.spot ∧ bytes = e.after) ∨
      (∀ e ∈ done, e.spot ≠ x) ∧ (∃ e ∈ done, x = e.spot.backup suffix) ∨
      (∀ e ∈ done, x ≠ e.spot ∧ x ≠ e.spot.backup suffix) ∧
        t.get? (x.location here) = some (.file bytes) := by
  by_cases hfile : ∃ e ∈ done, x = e.spot
  · obtain ⟨e, he, heq⟩ := hfile
    rw [heq, h.file e he] at hget
    cases hget
    exact .inl ⟨e, he, heq, rfl⟩
  have hne : ∀ e ∈ done, e.spot ≠ x := fun e he heq => hfile ⟨e, he, heq.symm⟩
  by_cases hbackup : ∃ e ∈ done, x = e.spot.backup suffix
  · exact .inr (.inl ⟨hne, hbackup⟩)
  · have hnone : ∀ e ∈ done, x ≠ e.spot ∧ x ≠ e.spot.backup suffix :=
      fun e he => ⟨(hne e he).symm, fun heq => hbackup ⟨e, he, heq⟩⟩
    rw [h.get?_of_ne hnone] at hget
    exact .inr (.inr ⟨hnone, hget⟩)

theorem Aftermath.exists_backup (h : Aftermath t t' root here suffix done) (he : e ∈ done) :
    ∃ bytes, t'.get? ((e.spot.backup suffix).location here) = some (.file bytes) := by
  by_cases hfile : ∃ d ∈ done, d.spot = e.spot.backup suffix
  · obtain ⟨d, hd, heq⟩ := hfile
    exact ⟨d.after, heq ▸ h.file d hd⟩
  · obtain ⟨d, -, hget⟩ := h.backup e he fun d hd heq => hfile ⟨d, hd, heq⟩
    exact ⟨d.before, hget⟩

/-- Files stay files. -/
theorem Aftermath.exists_file (h : Aftermath t t' root here suffix done)
    (hget : t.get? (x.location here) = some (.file bytes)) :
    ∃ bytes', t'.get? (x.location here) = some (.file bytes') := by
  by_cases hfile : ∃ e ∈ done, x = e.spot
  · obtain ⟨e, he, rfl⟩ := hfile
    exact ⟨e.after, h.file e he⟩
  by_cases hbackup : ∃ e ∈ done, x = e.spot.backup suffix
  · obtain ⟨e, he, rfl⟩ := hbackup
    exact h.exists_backup he
  · refine ⟨bytes, ?_⟩
    rw [h.get?_of_ne fun e he => ⟨fun heq => hfile ⟨e, he, heq⟩, fun heq => hbackup ⟨e, he, heq⟩⟩,
      hget]

theorem Aftermath.lists (h : Aftermath t t' root here suffix done)
    (hx : t.Lists Discovery.mayEnter root here x) : t'.Lists Discovery.mayEnter root here x := by
  obtain ⟨bytes, hget⟩ := hx.isFile
  exact ⟨hx.enter, hx.short, h.exists_file hget⟩

theorem Aftermath.lists_backup (h : Aftermath t t' root here suffix done) (he : e ∈ done)
    (hx : t.Lists Discovery.mayEnter root here e.spot) :
    t'.Lists Discovery.mayEnter root here (e.spot.backup suffix) :=
  ⟨hx.enter, Path.length_lt_of_fault? (Spot.fault?_eq_none.1 (h.fits e he)).1, h.exists_backup he⟩

end Tree

end ExplicitNull
