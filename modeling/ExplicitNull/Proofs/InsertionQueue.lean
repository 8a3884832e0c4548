import Mathlib.Data.List.Destutter
import ExplicitNull.Proofs.Attributes
import ExplicitNull.Proofs.MergedPlans
import ExplicitNull.Proofs.Parts
import ExplicitNull.Proofs.Settling

/-!
Fixing a source in one pass over a queue. The targets of a plan are gone through list by list, each
is checked again on the tokens at hand, and what is to be inserted is collected, sorted by position,
freed of repetitions and handed out as the tokens are copied. The text that comes out is the fixed
source, in which the piece stands before just the tokens that the candidates of the plan ask for.
-/
namespace ExplicitNull

namespace Fix

structure Insertion where
  before : Nat
  text : Bytes
  deriving DecidableEq, Repr

def lastTypeToken? (body : List Token) (start : Nat) : Option Nat :=
  (Candidate.variableIndex? body).bind fun v =>
    let last := typeEnd body start v
    if v = 0 ∨ last < start then none else some last

/-- What is to be inserted for one target. It must still pass the inspection, with its type at the
planned place. -/
def planInsertion? (ts : List Token) (param : Interval) (typeStart : Nat) (style : Style) :
    Option Insertion :=
  (Candidate.inspect ts param).bind fun accepted =>
    let bodyStart := accepted.regions.body.start
    let body := accepted.regions.body.slice ts
    if accepted.regions.hasAttribute ∨ accepted.type.start ≠ typeStart ∨ body.length ≤ typeStart ∨
        (body[typeStart]?.any fun t => t.text.head? == some (byte '?')) then none
    else match style with
      | .mark => some ⟨bodyStart + typeStart, utf8 "?"⟩
      | .union => (lastTypeToken? body typeStart).bind fun last =>
        if (Interval.slice ⟨typeStart, last + 1⟩ body).any admitsNull then none
        else some ⟨bodyStart + last + 1, utf8 "|null"⟩

def targetsOf (plan : FilePlan) (l : ParamList) : List (Address × Nat) :=
  plan.filter fun (a, _) => a.functionIndex == l.functionIndex

def insertions (plan : FilePlan) (ts : List Token) (style : Style) : List Insertion :=
  (parameterLists ts).flatMap fun l => (targetsOf plan l).filterMap fun (a, typeStart) =>
    l.params[a.paramIndex]?.bind fun param => planInsertion? ts param typeStart style

/-- The insertions by position. Of those before one token the first stays. -/
def queue (xs : List Insertion) : List Insertion :=
  (Sorting.sort (fun x y => x.before ≤ y.before) xs).destutter fun x y => x.before ≠ y.before

def emit (pending : List Insertion) (i : Nat) : List Token → Bytes
  | [] => []
  | t :: rest =>
    (pending.takeWhile (·.before == i)).flatMap Insertion.text ++ t.text ++
      emit (pending.dropWhile (·.before == i)) (i + 1) rest

end Fix

/-- A source with the planned parameters made explicitly nullable, by a queue of insertions. -/
def fixByQueue (src : Bytes) (plan : FilePlan) (style : Style) : Bytes :=
  let ts := tokenize src
  let found := Fix.insertions plan ts style
  if found = [] then src else Fix.emit (Fix.queue found) 0 ts

namespace Candidate

variable {ts : List Token} {param : Interval} {f : Finding}

/-- The type of an accepted parameter begins in the body, and with no mark. -/
theorem Accepts.exists_first (h : Accepts ts param f) :
    ∃ t, (f.regions.body.slice ts)[f.type.start]? = some t ∧ t.text.head? ≠ some (byte '?') := by
  obtain ⟨front, first, behind, hat, htype⟩ := exists_typeAt h.located
  refine ⟨first, by simp [hat.body_eq, htype], fun hmark => ?_⟩
  obtain ⟨more, hmore⟩ := List.head?_eq_some_iff.1 hmark
  have htrim : (Blank.trim (byte '?' :: (more ++ Token.source (typeRun behind)))).head? =
      some (byte '?') := Blank.head?_trim .nil (by decide)
  have hfix := h.fixable
  rw [h.typeName_eq, htype, typeText_of_typeAt hat, hat.typeRun_eq, Token.source_cons, hmore,
    List.cons_append, isFixable_iff] at hfix
  exact hfix.2.1 htrim

end Candidate

namespace Fix

section Targets

variable {ts : List Token} {plan : FilePlan} {style : Style}

/-- A target is inserted for if it is a candidate with its type at the planned place, and where the
candidate asks for it: what else is checked holds of every candidate. -/
theorem planInsertion?_eq_some {param : Interval} {typeStart : Nat} (a : Address) {x : Insertion} :
    planInsertion? ts param typeStart style = some x ↔
      ∃ f, Candidate.inspect ts param = some f ∧ f.type.start = typeStart ∧
        ∃ p, insertionPoint style ts ⟨a, f⟩ = some p ∧ x = ⟨p, style.piece⟩ := by
  rw [planInsertion?, Option.bind_eq_some_iff]
  refine exists_congr fun f => and_congr_right fun hf => ?_
  have haccepts := Candidate.inspect_eq_some.1 hf
  obtain ⟨first, hfirst, hnoMark⟩ := haccepts.exists_first
  have hlt := (List.getElem?_eq_some_iff.1 hfirst).1
  by_cases hstart : f.type.start = typeStart
  · subst hstart
    have hmark : ((f.regions.body.slice ts)[f.type.start]?.any fun t =>
        t.text.head? == some (byte '?')) = false := by simpa [hfirst] using hnoMark
    have hlength : ¬(f.regions.body.slice ts).length ≤ f.type.start := by omega
    simp only [haccepts.noAttribute, hmark, hlength, Bool.false_eq_true, ne_eq, not_true_eq_false,
      or_self, if_false, true_and]
    cases style with
    | mark => simp [insertionPoint, Candidate.typeIndex, Style.piece, eq_comm]
    | union =>
      obtain ⟨v, _, hv, hbehind, _⟩ := Candidate.locateType_eq_some haccepts.located
      have hend := typeEnd_bounds (f.regions.body.slice ts) hbehind
      have hlast : ¬typeEnd (f.regions.body.slice ts) f.type.start v < f.type.start := by omega
      have hv0 : v ≠ 0 := by omega
      simp only [insertionPoint, Candidate.body, lastTypeToken?, hv, hlast, hv0, or_self, false_or,
        if_false, Option.bind_some, Style.piece]
      split
      · simp
      · simp [eq_comm]
  · simp [hstart]

theorem mem_insertions (h : FilePlan.Consistent plan) {x : Insertion} :
    x ∈ insertions plan ts style ↔
      ∃ p ∈ insertionPoints style plan ts, x = ⟨p, style.piece⟩ := by
  simp only [insertions, targetsOf, List.mem_flatMap, List.mem_filterMap, List.mem_filter,
    Option.bind_eq_some_iff, mem_insertionPoints h, mem_candidates, beq_iff_eq]
  constructor
  · rintro ⟨l, hl, ⟨a, typeStart⟩, ⟨hplan, hindex⟩, param, hparam, hx⟩
    obtain ⟨f, hf, rfl, p, hp, rfl⟩ := (planInsertion?_eq_some a).1 hx
    obtain ⟨k, hk⟩ := List.getElem?_of_mem hl
    rw [functionIndex_of_getElem? hk] at hindex
    exact ⟨p, ⟨⟨a, f⟩, ⟨l, param, hindex ▸ hk, hparam, hf⟩, hplan, hp⟩, rfl⟩
  · rintro ⟨p, ⟨c, ⟨l, param, hl, hparam, hf⟩, hplan, hp⟩, rfl⟩
    exact ⟨l, List.mem_of_getElem? hl, target c, ⟨hplan, (functionIndex_of_getElem? hl).symm⟩,
      param, hparam, (planInsertion?_eq_some c.address).2 ⟨c.finding, hf, rfl, p, hp, rfl⟩⟩

end Targets

section Queue

variable {xs : List Insertion}

/-- Of the insertions for one position one is left over. -/
theorem exists_mem_destutter' (x : Insertion) (xs : List Insertion) {y : Insertion}
    (hy : y ∈ x :: xs) :
    ∃ z ∈ xs.destutter' (fun x y => x.before ≠ y.before) x, z.before = y.before := by
  induction xs generalizing x y with
  | nil =>
    obtain rfl := List.mem_singleton.1 hy
    exact ⟨y, List.mem_singleton_self y, rfl⟩
  | cons w xs ih =>
    by_cases hsame : x.before = w.before
    · rw [List.destutter'_cons_neg _ (not_not.2 hsame)]
      rcases List.mem_cons.1 hy with rfl | hy
      · exact ih y (List.mem_cons_self ..)
      · rcases List.mem_cons.1 hy with rfl | hy
        · obtain ⟨z, hz, hzx⟩ := ih x (List.mem_cons_self ..)
          exact ⟨z, hz, hzx.trans hsame⟩
        · exact ih x (List.mem_cons_of_mem x hy)
    · rw [List.destutter'_cons_pos _ hsame]
      rcases List.mem_cons.1 hy with rfl | hy
      · exact ⟨y, List.mem_cons_self .., rfl⟩
      · obtain ⟨z, hz, hzy⟩ := ih w hy
        exact ⟨z, List.mem_cons_of_mem x hz, hzy⟩

theorem mem_of_mem_queue {x : Insertion} (h : x ∈ queue xs) : x ∈ xs :=
  (Sorting.perm_sort _ xs).subset ((List.destutter_sublist _ _).subset h)

theorem exists_mem_queue {x : Insertion} (h : x ∈ xs) : ∃ y ∈ queue xs, y.before = x.before := by
  have hsorted : x ∈ Sorting.sort (fun x y => x.before ≤ y.before) xs :=
    (Sorting.perm_sort _ xs).mem_iff.2 h
  unfold queue
  cases hsort : Sorting.sort (fun x y : Insertion => x.before ≤ y.before) xs with
  | nil => simp [hsort] at hsorted
  | cons first rest => exact exists_mem_destutter' first rest (hsort ▸ hsorted)

/-- What is sorted and has no two neighbours with one position is strictly ascending. -/
theorem pairwise_queue (xs : List Insertion) :
    (queue xs).Pairwise fun x y => x.before < y.before := by
  have hsorted : (Sorting.sort (fun x y : Insertion => x.before ≤ y.before) xs).Pairwise
      fun x y => x.before ≤ y.before := by
    refine (Sorting.pairwise_sort ?_ ?_ xs).imp of_decide_eq_true
    · intro x y
      simpa using Nat.le_total x.before y.before
    · intro x y z
      simpa using Nat.le_trans
  have hle := hsorted.sublist (List.destutter_sublist (fun x y => x.before ≠ y.before) _)
  have hne := List.isChain_destutter (fun x y : Insertion => x.before ≠ y.before)
    (Sorting.sort (fun x y => x.before ≤ y.before) xs)
  have htrans : IsTrans Insertion fun x y => x.before < y.before := ⟨fun _ _ _ => Nat.lt_trans⟩
  refine List.isChain_iff_pairwise.1 (List.isChain_iff_getElem.2 fun i hi => ?_)
  exact Nat.lt_of_le_of_ne (List.pairwise_iff_getElem.1 hle i (i + 1) _ hi (Nat.lt_succ_self i))
    (List.isChain_iff_getElem.1 hne i hi)

/-- A queue that holds the piece for just the points from `i` on. -/
structure Serves (piece : Bytes) (points : List Nat) (i : Nat) (pending : List Insertion) :
    Prop where
  ascending : pending.Pairwise fun x y => x.before < y.before
  mem_iff : ∀ x, x ∈ pending ↔ x.before ∈ points ∧ i ≤ x.before ∧ x.text = piece

variable {piece : Bytes} {points : List Nat} {i : Nat} {pending : List Insertion}

theorem takeWhile_of_later (h : ∀ x ∈ pending, x.before ≠ i) :
    pending.takeWhile (·.before == i) = [] ∧ pending.dropWhile (·.before == i) = pending := by
  cases pending with
  | nil => exact ⟨rfl, rfl⟩
  | cons first later => simp [h first (List.mem_cons_self ..)]

theorem Serves.of_notMem (h : Serves piece points i pending) (hi : i ∉ points) :
    (∀ x ∈ pending, x.before ≠ i) ∧ Serves piece points (i + 1) pending := by
  have hne : ∀ {j}, j ∈ points → j ≠ i := fun hj heq => hi (heq ▸ hj)
  refine ⟨fun x hx => hne ((h.mem_iff x).1 hx).1, h.ascending, fun x => ?_⟩
  rw [h.mem_iff]
  refine and_congr_right fun hx => and_congr_left fun _ => ?_
  have := hne hx
  omega

/-- A piece that is due is the first in the queue, and the others serve what comes behind. -/
theorem Serves.of_mem (h : Serves piece points i pending) (hi : i ∈ points) :
    ∃ later, pending = ⟨i, piece⟩ :: later ∧ (∀ x ∈ later, x.before ≠ i) ∧
      Serves piece points (i + 1) later := by
  have hdue : ⟨i, piece⟩ ∈ pending := (h.mem_iff _).2 ⟨hi, Nat.le_refl i, rfl⟩
  obtain ⟨first, later, rfl⟩ := List.exists_cons_of_ne_nil (List.ne_nil_of_mem hdue)
  obtain ⟨hlater, hascending⟩ := List.pairwise_cons.1 h.ascending
  have hle := ((h.mem_iff first).1 (List.mem_cons_self ..)).2.1
  obtain rfl : ⟨i, piece⟩ = first := by
    rcases List.mem_cons.1 hdue with heq | hmem
    · exact heq
    · exact absurd (hlater _ hmem) (Nat.not_lt.2 hle)
  refine ⟨later, rfl, fun x hx => Nat.ne_of_gt (hlater x hx), hascending, fun x => ?_⟩
  constructor
  · intro hx
    obtain ⟨hpoint, -, htext⟩ := (h.mem_iff x).1 (List.mem_cons_of_mem _ hx)
    exact ⟨hpoint, hlater x hx, htext⟩
  · rintro ⟨hpoint, hlt, htext⟩
    rcases List.mem_cons.1 ((h.mem_iff x).2 ⟨hpoint, Nat.le_of_succ_le hlt, htext⟩) with rfl | hx
    · exact absurd hlt (Nat.lt_irrefl i)
    · exact hx

theorem emit_eq (h : Serves piece points i pending) (ts : List Token) :
    emit pending i ts = insertFrom piece points i ts := by
  induction ts generalizing i pending with
  | nil => rfl
  | cons t rest ih =>
    rw [emit, insertFrom]
    by_cases hi : i ∈ points
    · obtain ⟨later, rfl, hne, hserves⟩ := h.of_mem hi
      obtain ⟨htake, hdrop⟩ := takeWhile_of_later hne
      simp [htake, hdrop, hi, ih hserves]
    · obtain ⟨hne, hserves⟩ := h.of_notMem hi
      obtain ⟨htake, hdrop⟩ := takeWhile_of_later hne
      simp [htake, hdrop, hi, ih hserves]

theorem serves_queue {style : Style} {plan : FilePlan} (h : FilePlan.Consistent plan)
    (ts : List Token) :
    Serves style.piece (insertionPoints style plan ts) 0 (queue (insertions plan ts style)) where
  ascending := pairwise_queue _
  mem_iff x := by
    constructor
    · intro hx
      obtain ⟨p, hp, rfl⟩ := (mem_insertions h).1 (mem_of_mem_queue hx)
      exact ⟨hp, Nat.zero_le p, rfl⟩
    · rintro ⟨hp, -, htext⟩
      obtain ⟨y, hy, hbefore⟩ := exists_mem_queue ((mem_insertions h).2 ⟨x.before, hp, rfl⟩)
      obtain ⟨q, -, rfl⟩ := (mem_insertions h).1 (mem_of_mem_queue hy)
      obtain ⟨before, text⟩ := x
      dsimp only at hbefore htext
      rwa [← hbefore, htext]

end Queue

end Fix

/-- The queue yields the fixed source, for every plan that has no parameter with two starts. -/
theorem fixByQueue_eq {plan : FilePlan} (h : FilePlan.Consistent plan) (src : Bytes)
    (style : Style) : fixByQueue src plan style = fixSource src plan style := by
  unfold fixByQueue fixSource
  extract_lets ts found
  split
  · next hnone =>
    rw [Fix.insertFrom_eq_source, source_tokenize]
    intro j _ hj
    have hmem : ⟨0 + j, style.piece⟩ ∈ found := (Fix.mem_insertions h).2 ⟨_, hj, rfl⟩
    rw [hnone] at hmem
    cases hmem
  · exact Fix.emit_eq (Fix.serves_queue h (tokenize src)) (tokenize src)

/-- What a plan made of issues has for a file gives each parameter one start. -/
theorem consistent_of_file?_ofIssues {issues : List Issue} {p : Path} {plan : FilePlan}
    (h : (Plan.ofIssues issues).file? p = some plan) : FilePlan.Consistent plan := by
  have hascending : Assoc.Ascending Address.compare plan :=
    (Plan.merges_ofIssues issues).targets_ascending p plan h
  intro a t u ht hu
  have hsame : (a, t) = (a, u) := List.inj_on_of_nodup_map hascending.nodup ht hu rfl
  exact (Prod.mk.inj hsame).2

/-- With a plan made of issues the queue yields the fixed source of every file of it. -/
theorem fixByQueue_of_issues {issues : List Issue} {p : Path} {plan : FilePlan}
    (h : (Plan.ofIssues issues).file? p = some plan) (src : Bytes) (style : Style) :
    fixByQueue src plan style = fixSource src plan style :=
  fixByQueue_eq (consistent_of_file?_ofIssues h) src style

end ExplicitNull
