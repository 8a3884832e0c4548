import Mathlib.Data.List.Induction
import ExplicitNull.Proofs.Trees

/-!
Following paths to the files below a root. What a path is followed for shows only at its end: up
to a directory on its way all paths are followed alike, in any tree with the same frame. Behind a
root the names of a file lead straight down, so that the path of the file comes to the location
that these names make.
-/
namespace ExplicitNull

namespace Tree

structure GoesDown (name : Bytes) : Prop where
  not_empty : name ≠ []
  not_here : name ≠ utf8 "."
  not_parent : name ≠ utf8 ".."
  short : name.length ≤ maxNameLength

variable {t t' : Tree} {links left : Nat} {here there : Location} {name : Bytes}
  {steps rest : List Bytes} {purpose : Purpose}

theorem resolveFrom_nil (t : Tree) (purpose : Purpose) (links : Nat) (here : Location) :
    resolveFrom t purpose links here [] = .ok (.found here .directory) := by
  rw [resolveFrom_eq_walk]
  rfl

theorem resolveFrom_stay (h : name = [] ∨ name = utf8 ".") :
    resolveFrom t purpose links here (name :: rest) = resolveFrom t purpose links here rest := by
  rw [resolveFrom_cons, if_pos h]

theorem resolveFrom_up :
    resolveFrom t purpose links here (utf8 ".." :: rest) =
      resolveFrom t purpose links here.dropLast rest := by
  rw [resolveFrom_cons, if_neg (by decide), if_pos rfl]

theorem resolveFrom_down (h : GoesDown name) (hrest : ¬(purpose = .writing ∧ rest = [[]])) :
    resolveFrom t purpose links here (name :: rest) =
      match t.get? (here ++ [name]) with
      | none => if rest = [] then .ok (.vacant (here ++ [name])) else .error .notFound
      | some .directory => resolveFrom t purpose links (here ++ [name]) rest
      | some (.file bytes) =>
        if rest = [] then .ok (.found (here ++ [name]) (.file bytes)) else .error .notADirectory
      | some (.link target) =>
        if rest = [] ∧ purpose = .entry then .ok (.found (here ++ [name]) (.link target))
        else beyond t purpose links (if target.isAbsolute then [] else here)
          (target.steps ++ rest) := by
  have hstay : ¬(name = [] ∨ name = utf8 ".") := not_or.2 ⟨h.not_empty, h.not_here⟩
  have hlong : ¬maxNameLength < name.length := Nat.not_lt.2 h.short
  exact (resolveFrom_cons t purpose links here name rest).trans <|
    (if_neg hstay).trans <| (if_neg h.not_parent).trans <| (if_neg hrest).trans (if_neg hlong)

/-- From a location, with so many links to go, steps lead to a directory, with so many links left.
-/
inductive Leads (t : Tree) : Nat → Location → List Bytes → Nat → Location → Prop
  | stop (links : Nat) (here : Location) : Leads t links here [] links here
  | stay {links left : Nat} {here there : Location} {name : Bytes} {rest : List Bytes} :
      name = [] ∨ name = utf8 "." → Leads t links here rest left there →
      Leads t links here (name :: rest) left there
  | up {links left : Nat} {here there : Location} {rest : List Bytes} :
      Leads t links here.dropLast rest left there →
      Leads t links here (utf8 ".." :: rest) left there
  | down {links left : Nat} {here there : Location} {name : Bytes} {rest : List Bytes} :
      GoesDown name → t.get? (here ++ [name]) = some .directory →
      Leads t links (here ++ [name]) rest left there →
      Leads t links here (name :: rest) left there
  | jump {links left : Nat} {here there : Location} {name : Bytes} {rest : List Bytes}
      {target : Path} :
      GoesDown name → t.get? (here ++ [name]) = some (.link target) →
      Leads t links (if target.isAbsolute then [] else here) (target.steps ++ rest) left there →
      Leads t (links + 1) here (name :: rest) left there

inductive Walks (t : Tree) (purpose : Purpose) : Nat → Location → List Bytes → Target → Prop
  | stop (links : Nat) (here : Location) : Walks t purpose links here [] (.found here .directory)
  | stay {links : Nat} {here : Location} {name : Bytes} {rest : List Bytes} {target : Target} :
      name = [] ∨ name = utf8 "." → Walks t purpose links here rest target →
      Walks t purpose links here (name :: rest) target
  | up {links : Nat} {here : Location} {rest : List Bytes} {target : Target} :
      Walks t purpose links here.dropLast rest target →
      Walks t purpose links here (utf8 ".." :: rest) target
  | vacant {links : Nat} {here : Location} {name : Bytes} :
      GoesDown name → t.get? (here ++ [name]) = none →
      Walks t purpose links here [name] (.vacant (here ++ [name]))
  | file {links : Nat} {here : Location} {name bytes : Bytes} :
      GoesDown name → t.get? (here ++ [name]) = some (.file bytes) →
      Walks t purpose links here [name] (.found (here ++ [name]) (.file bytes))
  | link {links : Nat} {here : Location} {name : Bytes} {path : Path} :
      purpose = .entry → GoesDown name → t.get? (here ++ [name]) = some (.link path) →
      Walks t purpose links here [name] (.found (here ++ [name]) (.link path))
  | down {links : Nat} {here : Location} {name : Bytes} {rest : List Bytes} {target : Target} :
      GoesDown name → t.get? (here ++ [name]) = some .directory →
      Walks t purpose links (here ++ [name]) rest target →
      Walks t purpose links here (name :: rest) target
  | jump {links : Nat} {here : Location} {name : Bytes} {rest : List Bytes} {target : Target}
      {path : Path} :
      GoesDown name → t.get? (here ++ [name]) = some (.link path) →
      Walks t purpose links (if path.isAbsolute then [] else here) (path.steps ++ rest) target →
      Walks t purpose (links + 1) here (name :: rest) target

variable {target : Target}

/-- A walk that comes to a target, if those behind its links do as they should. -/
theorem walks_of_beyond
    (hbeyond : ∀ start steps, beyond t purpose links start steps = .ok target →
      ∃ n, links = n + 1 ∧ Walks t purpose n start steps target)
    (h : resolveFrom t purpose links here steps = .ok target) :
    Walks t purpose links here steps target := by
  induction steps generalizing here with
  | nil =>
    rw [resolveFrom_nil] at h
    cases h
    exact .stop ..
  | cons name rest ih =>
    by_cases hstay : name = [] ∨ name = utf8 "."
    · rw [resolveFrom_stay hstay] at h
      exact .stay hstay (ih h)
    by_cases hup : name = utf8 ".."
    · subst hup
      rw [resolveFrom_up] at h
      exact .up (ih h)
    rw [resolveFrom_cons, if_neg hstay, if_neg hup] at h
    split at h
    · cases h
    split at h
    · cases h
    next hlong =>
    have hdown : GoesDown name :=
      ⟨(not_or.1 hstay).1, (not_or.1 hstay).2, hup, Nat.not_lt.1 hlong⟩
    split at h
    · next hget =>
      split at h
      · next hrest =>
        cases h
        subst hrest
        exact .vacant hdown hget
      · cases h
    · next hget => exact .down hdown hget (ih h)
    · next bytes hget =>
      split at h
      · next hrest =>
        cases h
        subst hrest
        exact .file hdown hget
      · cases h
    · next path hget =>
      split at h
      · next hlast =>
        cases h
        rw [hlast.1]
        exact .link hlast.2 hdown hget
      · obtain ⟨n, hlinks, hwalks⟩ := hbeyond _ _ h
        subst hlinks
        exact .jump hdown hget hwalks

theorem walks_of_resolveFrom (h : resolveFrom t purpose links here steps = .ok target) :
    Walks t purpose links here steps target := by
  induction links generalizing here steps with
  | zero => exact walks_of_beyond (fun start steps hbeyond => nomatch hbeyond) h
  | succ n ih => exact walks_of_beyond (fun start steps hbeyond => ⟨n, rfl, ih hbeyond⟩) h

/-- A walk to a directory passes directories and links only. -/
theorem Walks.exists_leads (h : Walks t purpose links here steps (.found there .directory)) :
    ∃ left, Leads t links here steps left there := by
  generalize htarget : Target.found there .directory = target at h
  induction h with
  | stop links here =>
    cases htarget
    exact ⟨links, .stop ..⟩
  | stay hstay _ ih =>
    obtain ⟨left, hleads⟩ := ih htarget
    exact ⟨left, .stay hstay hleads⟩
  | up _ ih =>
    obtain ⟨left, hleads⟩ := ih htarget
    exact ⟨left, .up hleads⟩
  | vacant => cases htarget
  | file => cases htarget
  | link => cases htarget
  | down hdown hget _ ih =>
    obtain ⟨left, hleads⟩ := ih htarget
    exact ⟨left, .down hdown hget hleads⟩
  | jump hdown hget _ ih =>
    obtain ⟨left, hleads⟩ := ih htarget
    exact ⟨left, .jump hdown hget hleads⟩

theorem exists_leads (h : resolveFrom t .target links here steps = .ok (.found there .directory)) :
    ∃ left, Leads t links here steps left there :=
  (walks_of_resolveFrom h).exists_leads

/-- Behind a directory a path goes on as if it had started there. -/
theorem Leads.resolveFrom_append (h : Leads t links here steps left there)
    (hrest : purpose = .target ∨ rest ≠ [] ∧ rest ≠ [[]]) :
    resolveFrom t purpose links here (steps ++ rest) = resolveFrom t purpose left there rest := by
  have hslash : ∀ steps, ¬(purpose = .writing ∧ steps ++ rest = [[]]) := by
    intro steps hsteps
    rcases hrest with rfl | ⟨hne, hne'⟩
    · cases hsteps.1
    · rcases List.append_eq_singleton_iff.1 hsteps.2 with hsteps | hsteps
      · exact hne' hsteps.2
      · exact hne hsteps.2
  have hlink : ∀ steps, ¬(steps ++ rest = [] ∧ purpose = .entry) := by
    intro steps hsteps
    rcases hrest with rfl | ⟨hne, -⟩
    · cases hsteps.2
    · exact hne (List.append_eq_nil_iff.1 hsteps.1).2
  induction h with
  | stop links here => rfl
  | stay hstay _ ih => rw [List.cons_append, resolveFrom_stay hstay, ih]
  | up _ ih => rw [List.cons_append, resolveFrom_up, ih]
  | down hdown hget _ ih =>
    rw [List.cons_append, resolveFrom_down hdown (hslash _), hget]
    exact ih
  | jump hdown hget _ ih =>
    rw [List.cons_append, resolveFrom_down hdown (hslash _), hget]
    simp only [if_neg (hlink _)]
    rw [← List.append_assoc]
    exact ih

theorem Leads.resolveFrom_nil (h : Leads t links here steps left there) :
    resolveFrom t .target links here steps = .ok (.found there .directory) := by
  have hresolve : resolveFrom t .target links here (steps ++ []) = _ :=
    h.resolveFrom_append (.inl rfl)
  rw [List.append_nil, Tree.resolveFrom_nil] at hresolve
  exact hresolve

theorem Leads.resolveFrom_slash (h : Leads t links here steps left there) :
    resolveFrom t .target links here (steps ++ [[]]) = .ok (.found there .directory) := by
  rw [h.resolveFrom_append (.inl rfl), resolveFrom_stay (.inl rfl), Tree.resolveFrom_nil]

theorem Leads.congr (hframe : t.frame = t'.frame) (h : Leads t links here steps left there) :
    Leads t' links here steps left there := by
  induction h with
  | stop links here => exact .stop links here
  | stay hstay _ ih => exact .stay hstay ih
  | up _ ih => exact .up ih
  | down hdown hget _ ih => exact .down hdown (get?_directory_congr hframe hget) ih
  | jump hdown hget _ ih => exact .jump hdown (get?_link_congr hframe hget) ih

theorem Leads.append {last : Nat} {beyond : Location} (h : Leads t links here steps left there)
    (hrest : Leads t left there rest last beyond) :
    Leads t links here (steps ++ rest) last beyond := by
  induction h with
  | stop links here => exact hrest
  | stay hstay _ ih => exact .stay hstay (ih hrest)
  | up _ ih => exact .up (ih hrest)
  | down hdown hget _ ih => exact .down hdown hget (ih hrest)
  | jump hdown hget _ ih =>
    have hleads := ih hrest
    rw [List.append_assoc] at hleads
    exact .jump hdown hget hleads

/-- A slash behind the name of a directory may go. -/
theorem Leads.of_slash (h : Leads t links here (steps ++ [[]]) left there) :
    Leads t links here steps left there := by
  generalize hall : steps ++ [[]] = all at h
  induction h generalizing steps with
  | stop links here => simp at hall
  | @stay links left here there name rest hstay h ih =>
    cases steps with
    | nil =>
      cases hall
      exact h
    | cons step steps =>
      cases hall
      exact .stay hstay (ih rfl)
  | @up links left here there rest h ih =>
    cases steps with
    | nil => exact absurd (List.cons.inj hall).1.symm (by decide)
    | cons step steps =>
      cases hall
      exact .up (ih rfl)
  | @down links left here there name rest hdown hget h ih =>
    cases steps with
    | nil => exact absurd (List.cons.inj hall).1.symm hdown.not_empty
    | cons step steps =>
      cases hall
      exact .down hdown hget (ih rfl)
  | @jump links left here there name rest target hdown hget h ih =>
    cases steps with
    | nil => exact absurd (List.cons.inj hall).1.symm hdown.not_empty
    | cons step steps =>
      cases hall
      exact .jump hdown hget (ih (List.append_assoc ..))

/-- In a well-formed tree the names of directories lead straight down. -/
theorem WellFormed.leads (ht : t.WellFormed) (links : Nat) (here : Location) (names : List Bytes)
    (h : t.get? (here ++ names) = some .directory) :
    Leads t links here names links (here ++ names) := by
  induction names using List.reverseRecOn with
  | nil =>
    rw [List.append_nil]
    exact .stop links here
  | append_singleton names name ih =>
    rw [← List.append_assoc] at h ⊢
    have hparent := ht.parent _ _ h
    rw [List.dropLast_concat] at hparent
    have hname : Path.IsEntryName name := ht.isEntryName _ _ h name (by simp)
    have hdown : GoesDown name :=
      ⟨hname.nonempty, hname.not_here, hname.not_parent, hname.short⟩
    exact (ih hparent).append (.down hdown h (.stop ..))

variable {root : Path} {x : Spot}

theorem raw_ne_nil_of_resolve {target : Target} (h : t.resolve purpose root = .ok target) :
    root.raw ≠ [] := by
  intro hraw
  simp [resolve, Path.fault?, hraw] at h

theorem exists_leads_root (h : t.resolve .target root = .ok (.found here .directory)) :
    ∃ left, Leads t maxLinks [] root.names left here := by
  unfold resolve at h
  split at h
  · cases h
  · obtain ⟨left, hleads⟩ := exists_leads h
    refine ⟨left, ?_⟩
    unfold Path.steps at hleads
    split at hleads
    · exact hleads.of_slash
    · rw [List.append_nil] at hleads
      exact hleads

/-- A root is the same directory in all trees of one frame. -/
theorem resolve_root_congr (hframe : t.frame = t'.frame)
    (h : t.resolve .target root = .ok (.found here .directory)) :
    t'.resolve .target root = .ok (.found here .directory) := by
  unfold resolve at h ⊢
  split at h
  · cases h
  · obtain ⟨left, hleads⟩ := exists_leads h
    have hresolve := (hleads.congr hframe).resolveFrom_nil
    exact hresolve

/-- The path of a file below a root comes to the directory that is to hold it. -/
structure Reaches (t : Tree) (root : Path) (here : Location) (x : Spot) : Prop where
  root_ne_nil : root.raw ≠ []
  proper : x.IsProper
  leads : ∃ left, Leads t maxLinks [] (root.names ++ x.above) left (here ++ x.above)

theorem WellFormed.reaches (ht : t.WellFormed)
    (hroot : t.resolve .target root = .ok (.found here .directory)) (hx : x.IsProper)
    (habove : t.get? (here ++ x.above) = some .directory) : t.Reaches root here x := by
  obtain ⟨left, hleads⟩ := exists_leads_root hroot
  exact ⟨raw_ne_nil_of_resolve hroot, hx, left, hleads.append (ht.leads left here x.above habove)⟩

theorem Reaches.congr (hframe : t.frame = t'.frame) (h : t.Reaches root here x) :
    t'.Reaches root here x := by
  obtain ⟨left, hleads⟩ := h.leads
  exact ⟨h.root_ne_nil, h.proper, left, hleads.congr hframe⟩

theorem Reaches.backup (h : t.Reaches root here x) {suffix : Bytes} (hsuffix : suffix ≠ [])
    (hslash : byte '/' ∉ suffix) : t.Reaches root here (x.backup suffix) :=
  ⟨h.root_ne_nil, h.proper.backup hsuffix hslash, h.leads⟩

end Tree

def Target.atLocation (loc : Location) : Option Entry → Target
  | none => .vacant loc
  | some e => .found loc e

namespace Spot

def fault? (root : Path) (x : Spot) : Option FileError :=
  match (x.path root).fault? with
  | some e => some e
  | none => if Tree.maxNameLength < x.name.length then some .nameTooLong else none

theorem fault?_eq_none {root : Path} {x : Spot} : x.fault? root = none ↔
    (x.path root).fault? = none ∧ x.name.length ≤ Tree.maxNameLength := by
  unfold fault?
  cases (x.path root).fault? <;> simp

theorem fault?_eq_some {root : Path} {x : Spot} {e : FileError} : x.fault? root = some e ↔
    (x.path root).fault? = some e ∨
      (x.path root).fault? = none ∧ Tree.maxNameLength < x.name.length ∧ e = .nameTooLong := by
  unfold fault?
  cases (x.path root).fault? <;> simp [eq_comm]

theorem isEntryName_of_fault? {root : Path} {x : Spot} (hx : x.IsProper)
    (h : x.fault? root = none) : Path.IsEntryName x.name where
  toIsName := hx.name
  no_zero hzero := by
    apply Path.zero_notMem_of_fault? (fault?_eq_none.1 h).1
    exact List.mem_append_right _ hzero
  short := (fault?_eq_none.1 h).2

end Spot

namespace Tree

variable {t : Tree} {links : Nat} {here : Location} {name : Bytes} {root : Path} {x : Spot}
  {purpose : Purpose}

theorem resolveFrom_long (h : Path.IsName name) (hlong : maxNameLength < name.length) :
    resolveFrom t purpose links here [name] = .error .nameTooLong := by
  rw [resolveFrom_cons, if_neg (not_or.2 ⟨h.nonempty, h.not_here⟩), if_neg h.not_parent,
    if_neg (by simp), if_pos hlong]

theorem resolveFrom_name (h : Path.IsName name) (hshort : name.length ≤ maxNameLength)
    (hlink : purpose = .entry ∨ ∀ target, t.get? (here ++ [name]) ≠ some (.link target)) :
    resolveFrom t purpose links here [name] =
      .ok (.atLocation (here ++ [name]) (t.get? (here ++ [name]))) := by
  have hdown : GoesDown name := ⟨h.nonempty, h.not_here, h.not_parent, hshort⟩
  rw [resolveFrom_down hdown (by simp)]
  cases hget : t.get? (here ++ [name]) with
  | none => rfl
  | some e =>
    cases e with
    | file bytes => rfl
    | directory => exact resolveFrom_nil ..
    | link target =>
      rcases hlink with rfl | hlink
      · rfl
      · exact absurd hget (hlink target)

/-- The last step of the path of a file starts in the directory that is to hold it. -/
theorem Reaches.exists_resolve_eq (h : t.Reaches root here x)
    (hfault : (x.path root).fault? = none) (purpose : Purpose) :
    ∃ left, t.resolve purpose (x.path root) =
      resolveFrom t purpose left (here ++ x.above) [x.name] := by
  obtain ⟨left, hleads⟩ := h.leads
  have hname : x.name ≠ [] := h.proper.name.nonempty
  refine ⟨left, ?_⟩
  unfold Tree.resolve
  rw [hfault, Spot.steps_path h.root_ne_nil h.proper.isNamed]
  exact hleads.resolveFrom_append (.inr ⟨by simp, by simp [hname]⟩)

theorem Reaches.resolve_of_fault (h : t.Reaches root here x) {e : FileError}
    (hfault : x.fault? root = some e) (purpose : Purpose) :
    t.resolve purpose (x.path root) = .error e := by
  rcases Spot.fault?_eq_some.1 hfault with hpath | ⟨hpath, hlong, he⟩
  · unfold Tree.resolve
    rw [hpath]
  · obtain ⟨left, hresolve⟩ := h.exists_resolve_eq hpath purpose
    rw [hresolve, resolveFrom_long h.proper.name hlong, he]

/-- What the path of a file leads to, for every purpose if there is no link. -/
theorem Reaches.resolve (h : t.Reaches root here x) (hfault : x.fault? root = none)
    (hlink : purpose = .entry ∨ ∀ target, t.get? (x.location here) ≠ some (.link target)) :
    t.resolve purpose (x.path root) =
      .ok (.atLocation (x.location here) (t.get? (x.location here))) := by
  obtain ⟨hpath, hshort⟩ := Spot.fault?_eq_none.1 hfault
  obtain ⟨left, hresolve⟩ := h.exists_resolve_eq hpath purpose
  rw [hresolve]
  exact resolveFrom_name h.proper.name hshort hlink

/-- What stands at the last name of the path of a file. -/
theorem Reaches.place (h : t.Reaches root here x) (hfault : x.fault? root = none)
    (nameless : FileError) :
    t.place nameless (x.path root) =
      .ok (.atLocation (x.location here) (t.get? (x.location here))) := by
  obtain ⟨hpath, hshort⟩ := Spot.fault?_eq_none.1 hfault
  obtain ⟨left, hleads⟩ := h.leads
  have hdots : ¬(x.name = utf8 "." ∨ x.name = utf8 "..") :=
    not_or.2 ⟨h.proper.name.not_here, h.proper.name.not_parent⟩
  unfold Tree.place
  rw [hpath, Spot.names_path h.root_ne_nil h.proper.isNamed, List.dropLast_concat, List.getLast?_concat]
  simp only [hleads.resolveFrom_slash, if_neg hdots]
  exact resolveFrom_name h.proper.name hshort (.inl rfl)

end Tree

end ExplicitNull
