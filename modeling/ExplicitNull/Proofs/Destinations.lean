import ExplicitNull.Proofs.Operations

/-!
Where a path leads that can be written to: through directories and links to a location that has a
file or nothing. In all trees of one frame this is the same location, so that a file stays where its
path finds it, whatever is written to other files.
-/
namespace ExplicitNull.Tree

/-- From a location, with so many links to go, steps lead to a place for a file. -/
inductive Ends (t : Tree) : Nat → Location → List Bytes → Location → Prop
  | last {links : Nat} {here : Location} {name : Bytes} :
      GoesDown name → t.frame (here ++ [name]) = none →
      Ends t links here [name] (here ++ [name])
  | stay {links : Nat} {here loc : Location} {name : Bytes} {rest : List Bytes} :
      name = [] ∨ name = utf8 "." → Ends t links here rest loc →
      Ends t links here (name :: rest) loc
  | up {links : Nat} {here loc : Location} {rest : List Bytes} :
      Ends t links here.dropLast rest loc → Ends t links here (utf8 ".." :: rest) loc
  | down {links : Nat} {here loc : Location} {name : Bytes} {rest : List Bytes} :
      GoesDown name → t.get? (here ++ [name]) = some .directory →
      Ends t links (here ++ [name]) rest loc → Ends t links here (name :: rest) loc
  | jump {links : Nat} {here loc : Location} {name : Bytes} {rest : List Bytes} {target : Path} :
      GoesDown name → t.get? (here ++ [name]) = some (.link target) →
      Ends t links (if target.isAbsolute then [] else here) (target.steps ++ rest) loc →
      Ends t (links + 1) here (name :: rest) loc

variable {t t' : Tree} {links : Nat} {here loc : Location} {steps : List Bytes}
  {purpose : Purpose} {p : Path} {bytes : Bytes}

theorem Ends.congr (hframe : t.frame = t'.frame) (h : Ends t links here steps loc) :
    Ends t' links here steps loc := by
  induction h with
  | last hdown hnone => exact .last hdown (by rw [← hframe, hnone])
  | stay hstay _ ih => exact .stay hstay ih
  | up _ ih => exact .up ih
  | down hdown hget _ ih => exact .down hdown (get?_directory_congr hframe hget) ih
  | jump hdown hget _ ih => exact .jump hdown (get?_link_congr hframe hget) ih

theorem Ends.frame (h : Ends t links here steps loc) : t.frame loc = none := by
  induction h with
  | last _ hnone => exact hnone
  | stay _ _ ih => exact ih
  | up _ ih => exact ih
  | down _ _ _ ih => exact ih
  | jump _ _ _ ih => exact ih

theorem Ends.ne_nil (h : Ends t links here steps loc) : steps ≠ [] := by
  cases h <;> exact List.cons_ne_nil _ _

/-- There is no slash behind the last name of a file. -/
theorem Ends.getLast?_ne (h : Ends t links here steps loc) : steps.getLast? ≠ some [] := by
  have hcons : ∀ {name : Bytes} {rest : List Bytes}, rest ≠ [] → rest.getLast? ≠ some [] →
      (name :: rest).getLast? ≠ some [] := fun hne hlast => by
    rwa [List.getLast?_cons_of_ne_nil hne]
  induction h with
  | last hdown _ => simpa using hdown.not_empty
  | stay _ h ih => exact hcons h.ne_nil ih
  | up h ih => exact hcons h.ne_nil ih
  | down _ _ h ih => exact hcons h.ne_nil ih
  | @jump links here loc name rest target hdown _ _ ih =>
    by_cases hrest : rest = []
    · subst hrest
      simpa using hdown.not_empty
    · have hlast : (target.steps ++ rest).getLast? = rest.getLast? := by
        rw [List.getLast?_append, List.getLast?_eq_some_getLast hrest, Option.some_or]
      rw [hlast] at ih
      exact hcons hrest ih

theorem Ends.resolveFrom (h : Ends t links here steps loc) (hpurpose : purpose ≠ .entry) :
    Tree.resolveFrom t purpose links here steps = .ok (.atLocation loc (t.get? loc)) := by
  induction h with
  | @last links here name hdown hnone =>
    rw [resolveFrom_down hdown (by simp)]
    rcases frame_eq_none.1 hnone with hget | ⟨bytes, hget⟩
    · rw [hget]
      rfl
    · rw [hget]
      rfl
  | stay hstay _ ih => rw [resolveFrom_stay hstay, ih]
  | up _ ih => rw [resolveFrom_up, ih]
  | down hdown hget h ih =>
    rw [resolveFrom_down hdown (fun hslash => h.getLast?_ne (by rw [hslash.2]; rfl)), hget]
    exact ih
  | jump hdown hget h ih =>
    rw [resolveFrom_down hdown (fun hslash => h.getLast?_ne (by rw [hslash.2]; simp)), hget]
    exact (if_neg fun hentry => hpurpose hentry.2).trans ih

/-- A walk to a file or to a vacant location. -/
theorem ends_of_resolveFrom (hpurpose : purpose ≠ .entry) {target : Target}
    (hplace : target = .vacant loc ∨ ∃ bytes, target = .found loc (.file bytes))
    (h : resolveFrom t purpose links here steps = .ok target) : Ends t links here steps loc := by
  have hwalks := walks_of_resolveFrom h
  clear h
  induction hwalks with
  | stop => rcases hplace with hplace | ⟨bytes, hplace⟩ <;> cases hplace
  | stay hstay _ ih => exact .stay hstay (ih hplace)
  | up _ ih => exact .up (ih hplace)
  | vacant hdown hget =>
    rcases hplace with hplace | ⟨bytes, hplace⟩
    · cases hplace
      exact .last hdown (frame_eq_none.2 (.inl hget))
    · cases hplace
  | file hdown hget =>
    rcases hplace with hplace | ⟨bytes, hplace⟩
    · cases hplace
    · cases hplace
      exact .last hdown (frame_eq_none.2 (.inr ⟨_, hget⟩))
  | link hentry => exact absurd hentry hpurpose
  | down hdown hget _ ih => exact .down hdown hget (ih hplace)
  | jump hdown hget _ ih => exact .jump hdown hget (ih hplace)

theorem writable_eq_ok : t.writable p = .ok loc ↔
    p.fault? = none ∧ Ends t maxLinks [] p.steps loc := by
  unfold writable resolve
  cases hfault : p.fault? with
  | some e => simp
  | none =>
    simp only [true_and]
    constructor
    · intro h
      split at h
      · cases h
      · next hresolve =>
        cases h
        exact ends_of_resolveFrom (by decide) (.inr ⟨_, rfl⟩) hresolve
      · next hresolve =>
        cases h
        exact ends_of_resolveFrom (by decide) (.inl rfl) hresolve
      · cases h
      · cases h
    · intro h
      rw [h.resolveFrom (by decide)]
      rcases frame_eq_none.1 h.frame with hget | ⟨bytes, hget⟩
      · rw [hget]
        rfl
      · rw [hget]
        rfl

/-- A path leads to a file if there is one where the path can be written to. -/
theorem file_eq_ok : t.file p = .ok (loc, bytes) ↔
    t.writable p = .ok loc ∧ t.get? loc = some (.file bytes) := by
  rw [writable_eq_ok]
  unfold file resolve
  cases hfault : p.fault? with
  | some e => simp
  | none =>
    simp only [true_and]
    constructor
    · intro h
      split at h
      · cases h
      · next hresolve =>
        cases h
        have hends := ends_of_resolveFrom (by decide) (.inr ⟨_, rfl⟩) hresolve
        rw [hends.resolveFrom (by decide)] at hresolve
        refine ⟨hends, ?_⟩
        rcases frame_eq_none.1 hends.frame with hget | ⟨bytes, hget⟩
        · rw [hget] at hresolve
          cases hresolve
        · rw [hget] at hresolve
          cases hresolve
          exact hget
      · cases h
      · cases h
      · cases h
    · intro h
      rw [h.1.resolveFrom (by decide), h.2]
      rfl

theorem frame_of_writable (h : t.writable p = .ok loc) : t.frame loc = none :=
  (writable_eq_ok.1 h).2.frame

theorem writable_congr (hframe : t.frame = t'.frame) (h : t.writable p = .ok loc) :
    t'.writable p = .ok loc := by
  obtain ⟨hfault, hends⟩ := writable_eq_ok.1 h
  exact writable_eq_ok.2 ⟨hfault, hends.congr hframe⟩

theorem exists_file_of_read (h : t.read p = .ok bytes) : ∃ file, t.file p = .ok (file, bytes) := by
  unfold read at h
  cases hfile : t.file p with
  | error e =>
    rw [hfile] at h
    cases h
  | ok found =>
    obtain ⟨file, bytes'⟩ := found
    rw [hfile] at h
    cases h
    exact ⟨file, rfl⟩

theorem read_eq_ok (h : t.writable p = .ok loc) :
    t.read p = .ok bytes ↔ t.get? loc = some (.file bytes) := by
  constructor
  · intro hread
    obtain ⟨loc', hfile⟩ := exists_file_of_read hread
    obtain ⟨hwritable, hget⟩ := file_eq_ok.1 hfile
    rw [h] at hwritable
    cases hwritable
    exact hget
  · intro hget
    unfold read
    rw [file_eq_ok.2 ⟨h, hget⟩]
    rfl

end ExplicitNull.Tree
