import ExplicitNull.Proofs.Resolution

/-!
What the operations do with files below a root, when their paths come to the directories that are
to hold them. Copying and writing set the one location that the target's path makes, and only
where there is a file or nothing; moving takes the file from one location to another.
-/
namespace ExplicitNull.Tree

variable {t : Tree} {here : Location} {root : Path} {x y : Spot} {bytes : Bytes}

theorem Reaches.file (h : t.Reaches root here x) (hfault : x.fault? root = none)
    (hget : t.get? (x.location here) = some (.file bytes)) :
    t.file (x.path root) = .ok (x.location here, bytes) := by
  have hlink : ∀ target, t.get? (x.location here) ≠ some (.link target) := by simp [hget]
  unfold Tree.file
  rw [h.resolve hfault (.inr hlink), hget]
  rfl

theorem Reaches.file_of_fault (h : t.Reaches root here x) {e : FileError}
    (hfault : x.fault? root = some e) : t.file (x.path root) = .error e := by
  unfold Tree.file
  rw [h.resolve_of_fault hfault]

/-- A path that can be written to leads to a file or to a vacant place, unless it leads on through
a link. -/
theorem Reaches.writable_eq_ok (h : t.Reaches root here x)
    (hlink : x.fault? root = none → ∀ target, t.get? (x.location here) ≠ some (.link target))
    {loc : Location} : t.writable (x.path root) = .ok loc ↔
      x.fault? root = none ∧ t.frame (x.location here) = none ∧ loc = x.location here := by
  unfold writable
  cases hfault : x.fault? root with
  | some e => simp [h.resolve_of_fault hfault]
  | none =>
    rw [h.resolve hfault (.inr (hlink hfault)), frame_eq_none]
    cases hget : t.get? (x.location here) with
    | none => simp [Target.atLocation, eq_comm]
    | some e =>
      cases e with
      | file bytes => simp [Target.atLocation, eq_comm]
      | link target => exact absurd hget (hlink hfault target)
      | directory => simp [Target.atLocation]

theorem no_link_of_frame {loc : Location} (h : t.frame loc = none) (target : Path) :
    t.get? loc ≠ some (.link target) := by
  intro hget
  rw [(frame_eq_some rfl).2 hget] at h
  cases h

theorem Reaches.write (h : t.Reaches root here x) (hfault : x.fault? root = none)
    (hframe : t.frame (x.location here) = none) (bytes : Bytes) :
    t.write (x.path root) bytes = .ok (t.set (x.location here) (.file bytes)) := by
  have hwritable : t.writable (x.path root) = .ok (x.location here) :=
    (h.writable_eq_ok fun _ => no_link_of_frame hframe).2 ⟨hfault, hframe, rfl⟩
  unfold Tree.write
  rw [hwritable]
  rfl

/-- Copying a file to another place that is no link fails, or sets that place. -/
theorem Reaches.copy_cases (hx : t.Reaches root here x) (hy : t.Reaches root here y)
    (hget : t.get? (x.location here) = some (.file bytes)) (hne : y ≠ x)
    (hlink : y.fault? root = none → ∀ target, t.get? (y.location here) ≠ some (.link target)) :
    (∃ e, t.copy (x.path root) (y.path root) = .error e) ∨
      x.fault? root = none ∧ y.fault? root = none ∧ t.frame (y.location here) = none ∧
        t.copy (x.path root) (y.path root) = .ok (t.set (y.location here) (.file bytes)) := by
  unfold Tree.copy
  cases hfault : x.fault? root with
  | some e =>
    left
    rw [hx.file_of_fault hfault]
    cases e <;> exact ⟨_, rfl⟩
  | none =>
    rw [hx.file hfault hget]
    cases hwritable : t.writable (y.path root) with
    | error e => exact .inl ⟨e, rfl⟩
    | ok loc =>
      obtain ⟨hfault', hframe, hloc⟩ := (hy.writable_eq_ok hlink).1 hwritable
      subst hloc
      have hne' : y.location here ≠ x.location here := fun h => hne (Spot.location_injective h)
      refine .inr ⟨rfl, hfault', hframe, ?_⟩
      simp [Except.map, hne']

/-- Moving a file fails just where a directory is in the way. -/
theorem Reaches.rename_cases (hx : t.Reaches root here x) (hy : t.Reaches root here y)
    (hfault : x.fault? root = none) (hfault' : y.fault? root = none)
    (hget : t.get? (x.location here) = some (.file bytes)) :
    t.get? (y.location here) = some .directory ∧
        t.rename (x.path root) (y.path root) = .error .isADirectory ∨
      t.get? (y.location here) ≠ some .directory ∧ t.rename (x.path root) (y.path root) =
        .ok (if y = x then t
          else (t.erase (x.location here)).set (y.location here) (.file bytes)) := by
  have hend := Spot.endsInSlash_path root hx.proper.isNamed
  have hend' := Spot.endsInSlash_path root hy.proper.isNamed
  have hsame : y.location here = x.location here ↔ y = x :=
    ⟨Spot.location_injective, congrArg _⟩
  unfold Tree.rename
  rw [hx.place hfault, hy.place hfault', hget]
  cases hget' : t.get? (y.location here) with
  | none => simp [Target.atLocation, hend, hend', hsame]
  | some e => cases e <;> simp [Target.atLocation, hend, hend', hsame]

/-- Moving a file over another one. -/
theorem Reaches.rename (hx : t.Reaches root here x) (hy : t.Reaches root here y)
    (hfault : x.fault? root = none) (hfault' : y.fault? root = none)
    (hget : t.get? (x.location here) = some (.file bytes))
    (hframe : t.frame (y.location here) = none) (hne : y ≠ x) :
    t.rename (x.path root) (y.path root) =
      .ok ((t.erase (x.location here)).set (y.location here) (.file bytes)) := by
  rcases hx.rename_cases hy hfault hfault' hget with ⟨hdirectory, -⟩ | ⟨-, hrename⟩
  · rw [(frame_eq_some rfl).2 hdirectory] at hframe
    cases hframe
  · rw [if_neg hne] at hrename
    exact hrename

end ExplicitNull.Tree
