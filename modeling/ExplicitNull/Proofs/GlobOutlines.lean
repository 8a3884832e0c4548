import Mathlib.Data.List.Induction
import ExplicitNull.Glob.Parser

/-!
Whether a glob can be read. What its parts are and where its stars stand does not matter for that,
only the backslashes, the classes and how many groups are open: an outline of the reader that keeps
track of these gets through the same globs and fails with the same errors. Characters that are not
visible ASCII mean nothing to it, except that one behind a backslash is taken as it is. So without
them at its ends a glob can still be read, unless a backslash is left at the end with nothing to
take.
-/
namespace ExplicitNull.Glob

/-- Where the reader is, stars counting as text. -/
inductive Place
  | outside
  | escaped
  | classStart
  | inClass (c : ClassState)
  deriving DecidableEq, Repr

def Place.isClass : Place → Bool
  | .outside | .escaped => false
  | .classStart | .inClass _ => true

/-- What decides whether a glob can be read: where the reader is and how many groups are open. -/
structure Outline where
  place : Place
  depth : Nat
  deriving DecidableEq, Repr

namespace Outline

def start : Outline := ⟨.outside, 0⟩

def step (o : Outline) (c : Char) : Except ParseError Outline :=
  match o.place with
  | .outside =>
    if c = '[' then .ok { o with place := .classStart }
    else if c = '\\' then .ok { o with place := .escaped }
    else if c = '\x7b' then .ok { o with depth := o.depth + 1 }
    else if c = '\x7d' then
      match o.depth with
      | 0 => .error .unopenedGroup
      | depth + 1 => .ok { o with depth := depth }
    else .ok o
  | .escaped => .ok { o with place := .outside }
  | .classStart =>
    if c = '!' ∨ c = '^' then .ok { o with place := .inClass ⟨true, [], false⟩ }
    else .ok { o with place := .inClass ⟨false, [(c, c)], false⟩ }
  | .inClass cls =>
    if c = ']' ∧ cls.ranges ≠ [] then .ok { o with place := .outside }
    else (cls.add c).map fun cls' => { o with place := .inClass cls' }

def finish (o : Outline) : Except ParseError Unit :=
  match o.place with
  | .outside => if o.depth = 0 then .ok () else .error .unclosedGroup
  | .escaped => .error .danglingEscape
  | .classStart | .inClass _ => .error .unclosedClass

def check (cs : List Char) : Except ParseError Unit := cs.foldlM step start >>= finish

end Outline

/-! ### The outline of the reader -/

def Mode.place : Mode → Place
  | .text | .star _ | .stars _ => .outside
  | .escaped => .escaped
  | .classStart => .classStart
  | .inClass c => .inClass c

namespace ParseState

def outline (s : ParseState) : Outline := ⟨s.mode.place, s.groups.length⟩

theorem outline_stepText (s : ParseState) (c : Char) :
    (s.stepText c).map outline = Outline.step ⟨.outside, s.groups.length⟩ c := by
  unfold stepText Outline.step
  split
  · next hc => subst hc; rfl
  split
  · next hc => subst hc; rfl
  split
  · rfl
  split
  · rfl
  split
  · rfl
  split
  · cases s.groups <;> rfl
  split
  · cases s.groups <;> rfl
  · rfl

/-- Each step of the reader is a step of its outline. -/
theorem outline_step (s : ParseState) (c : Char) :
    (s.step c).map outline = s.outline.step c := by
  obtain ⟨mode, previous, parts, groups⟩ := s
  cases mode with
  | text => exact outline_stepText _ c
  | star before =>
    unfold step
    dsimp only
    split
    · next hc => subst hc; rfl
    · exact outline_stepText _ c
  | stars before =>
    unfold step
    dsimp only
    split
    · next hc => obtain ⟨rfl, -⟩ := hc; rfl
    · exact outline_stepText _ c
  | escaped => rfl
  | classStart =>
    unfold step outline Outline.step Mode.place
    dsimp only
    split <;> rfl
  | inClass cls =>
    unfold step outline Outline.step Mode.place
    dsimp only
    split
    · rfl
    · cases cls.add c <;> rfl

theorem outline_foldlM (s : ParseState) (cs : List Char) :
    (cs.foldlM step s).map outline = cs.foldlM Outline.step s.outline := by
  induction cs generalizing s with
  | nil => rfl
  | cons c cs ih =>
    rw [List.foldlM_cons, List.foldlM_cons, ← outline_step]
    cases s.step c with
    | error e => rfl
    | ok s' => exact ih s'

theorem outline_finish (s : ParseState) : s.finish.map (fun _ => ()) = s.outline.finish := by
  obtain ⟨mode, previous, parts, groups⟩ := s
  cases mode with
  | text => cases groups <;> rfl
  | star before => cases groups <;> rfl
  | stars before => cases groups <;> rfl
  | escaped => rfl
  | classStart => rfl
  | inClass cls => rfl

end ParseState

/-- A glob can be read if its outline gets through, and fails for the same reason. -/
theorem parse_eq_check (cs : List Char) : (parse cs).map (fun _ => ()) = Outline.check cs := by
  have houtline := ParseState.outline_foldlM .start cs
  have hstart : ParseState.start.outline = .start := rfl
  unfold parse Outline.check
  rw [← hstart, ← houtline]
  cases cs.foldlM ParseState.step .start with
  | error e => rfl
  | ok s => exact s.outline_finish

/-! ### The ends of a glob -/

/-- A character that is no visible ASCII character, and so none that means something in a glob. -/
def IsPlain (c : Char) : Prop := c.toNat ≤ 0x20 ∨ 0x80 ≤ c.toNat

instance (c : Char) : Decidable (IsPlain c) := inferInstanceAs (Decidable (_ ∨ _))

theorem IsPlain.ne {c d : Char} (hc : IsPlain c) (hd : ¬IsPlain d) : c ≠ d := by
  rintro rfl
  exact hd hc

/-- Whether a text ends in an odd number of backslashes, so that the last one is not taken by one
before it. -/
def endsInEscape (cs : List Char) : Bool := (cs.reverse.takeWhile (· = '\\')).length % 2 = 1

theorem endsInEscape_concat (cs : List Char) (c : Char) :
    endsInEscape (cs ++ [c]) = (decide (c = '\\') && !endsInEscape cs) := by
  unfold endsInEscape
  rw [List.reverse_concat, List.takeWhile_cons]
  by_cases hc : c = '\\'
  · simp only [hc, decide_true, if_true, List.length_cons, Bool.true_and, ← decide_not,
      decide_eq_decide]
    omega
  · simp [hc]

/-- What succeeds in two steps succeeds in the first. -/
theorem exists_of_bind_eq_ok {ε α β : Type} {x : Except ε α} {f : α → Except ε β} {b : β}
    (h : x >>= f = .ok b) : ∃ a, x = .ok a ∧ f a = .ok b := by
  cases x with
  | error e => cases h
  | ok a => exact ⟨a, rfl, h⟩

namespace Outline

variable {o o' : Outline} {c : Char} {cs xs ys : List Char}

theorem step_of_outside (ho : o.place = .outside) (hc : IsPlain c) : o.step c = .ok o := by
  unfold step
  rw [ho]
  dsimp only
  rw [if_neg (hc.ne (by decide)), if_neg (hc.ne (by decide)), if_neg (hc.ne (by decide)),
    if_neg (hc.ne (by decide))]

theorem foldlM_of_outside (ho : o.place = .outside) (hcs : ∀ c ∈ cs, IsPlain c) :
    cs.foldlM step o = .ok o := by
  induction cs with
  | nil => rfl
  | cons c cs ih =>
    obtain ⟨hc, hcs⟩ := List.forall_mem_cons.1 hcs
    rw [List.foldlM_cons, step_of_outside ho hc]
    exact ih hcs

theorem isClass_of_add {cls : ClassState} {depth : Nat} (h : ((cls.add c).map fun cls' =>
    (⟨.inClass cls', depth⟩ : Outline)) = .ok o') : o'.place.isClass = true := by
  cases hadd : cls.add c with
  | error e => rw [hadd] at h; cases h
  | ok cls' =>
    rw [hadd] at h
    cases h
    rfl

/-- No class ends at a character that is not its bracket. -/
theorem isClass_of_step (ho : o.place.isClass = true) (hc : c ≠ ']') (h : o.step c = .ok o') :
    o'.place.isClass = true := by
  obtain ⟨place, depth⟩ := o
  unfold step at h
  cases place with
  | outside => cases ho
  | escaped => cases ho
  | classStart =>
    dsimp only at h
    split at h <;> cases h <;> rfl
  | inClass cls =>
    dsimp only at h
    rw [if_neg fun hend => hc hend.1] at h
    exact isClass_of_add h

theorem isClass_of_foldlM (ho : o.place.isClass = true) (hcs : ∀ c ∈ cs, c ≠ ']')
    (h : cs.foldlM step o = .ok o') : o'.place.isClass = true := by
  induction cs generalizing o with
  | nil => cases h; exact ho
  | cons c cs ih =>
    obtain ⟨hc, hcs⟩ := List.forall_mem_cons.1 hcs
    rw [List.foldlM_cons] at h
    obtain ⟨next, hstep, hrest⟩ := exists_of_bind_eq_ok h
    exact ih (isClass_of_step ho hc hstep) hcs hrest

/-- A backslash outside of classes begins an escape, unless one is under way. -/
theorem escaped_of_backslash (hclass : o'.place.isClass = false) (h : o.step '\\' = .ok o') :
    o.place.isClass = false ∧ (o'.place = .escaped ↔ o.place ≠ .escaped) := by
  obtain ⟨place, depth⟩ := o
  cases place with
  | outside => cases h; simp [Place.isClass]
  | escaped => cases h; simp [Place.isClass]
  | classStart | inClass cls =>
    rw [isClass_of_step rfl (by decide) h] at hclass
    cases hclass

/-- Nothing but a backslash begins an escape. -/
theorem eq_backslash_of_escaped (ho' : o'.place = .escaped) (h : o.step c = .ok o') : c = '\\' := by
  obtain ⟨place, depth⟩ := o
  unfold step at h
  cases place with
  | outside =>
    dsimp only at h
    split at h
    · cases h; cases ho'
    split at h
    · assumption
    split at h
    · cases h; cases ho'
    split at h
    · cases depth <;> cases h; cases ho'
    · cases h; cases ho'
  | escaped => cases h; cases ho'
  | classStart =>
    dsimp only at h
    split at h <;> cases h <;> cases ho'
  | inClass cls =>
    dsimp only at h
    split at h
    · cases h; cases ho'
    · have hclass := isClass_of_add h
      rw [ho'] at hclass
      cases hclass

/-- Outside of classes the backslashes at the end tell whether one is left over. -/
theorem escaped_iff_endsInEscape (h : cs.foldlM step start = .ok o)
    (hclass : o.place.isClass = false) : o.place = .escaped ↔ endsInEscape cs = true := by
  induction cs using List.reverseRecOn generalizing o with
  | nil => cases h; simp [start, endsInEscape]
  | append_singleton cs c ih =>
    rw [List.foldlM_append] at h
    obtain ⟨before, hcs, h⟩ := exists_of_bind_eq_ok h
    have hstep : before.step c = .ok o := by simpa using h
    rw [endsInEscape_concat]
    by_cases hc : c = '\\'
    · obtain ⟨hbefore, hiff⟩ := escaped_of_backslash hclass (hc ▸ hstep)
      rw [hiff, ne_eq, ih hcs hbefore]
      simp [hc]
    · have hnone : o.place ≠ .escaped := fun ho => hc (eq_backslash_of_escaped ho hstep)
      simp [hc, hnone]

/-- A glob that can be read with plain characters around it can be read without them, but for a
backslash that has lost what it takes. -/
theorem check_inner (hxs : ∀ c ∈ xs, IsPlain c) (hys : ∀ c ∈ ys, IsPlain c)
    (h : check (xs ++ (cs ++ ys)) = .ok ()) :
    check cs = if endsInEscape cs then .error .danglingEscape else .ok () := by
  obtain ⟨last, hlast, hfinish⟩ := exists_of_bind_eq_ok h
  rw [List.foldlM_append, foldlM_of_outside rfl hxs] at hlast
  change (cs ++ ys).foldlM step start = _ at hlast
  rw [List.foldlM_append] at hlast
  obtain ⟨o, hcs, hys'⟩ := exists_of_bind_eq_ok hlast
  have hescape := escaped_iff_endsInEscape hcs
  have hcheck : check cs = o.finish := by
    unfold check
    rw [hcs]
    rfl
  rw [hcheck]
  obtain ⟨place, depth⟩ := o
  cases place with
  | outside =>
    rw [foldlM_of_outside rfl hys] at hys'
    cases hys'
    rw [if_neg fun hend => Place.noConfusion ((hescape rfl).2 hend)]
    exact hfinish
  | escaped => rw [if_pos ((hescape rfl).1 rfl), finish]
  | classStart | inClass cls =>
    -- the class would be open still behind the plain characters
    have hopen : last.place.isClass = true :=
      isClass_of_foldlM rfl (fun c hc => (hys c hc).ne (by decide)) hys'
    unfold finish at hfinish
    cases hplace : last.place <;> rw [hplace] at hopen hfinish <;> cases hopen <;> cases hfinish

end Outline

end ExplicitNull.Glob
