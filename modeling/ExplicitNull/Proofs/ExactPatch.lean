import ExplicitNull.Proofs.Candidates
import ExplicitNull.Proofs.Lossless
import ExplicitNull.Proofs.Plans

/-!
A fixed text is the source with pieces between some of its tokens. The source is cut before the
tokens at certain positions and put together again with the piece of the style at each cut. Each
cut belongs to an issue that the scan of the same source reports with the type start that the plan
has for it, so a plan does no more than its restriction to what the scan reports.
-/
namespace ExplicitNull

/-- The stretches of a list between cuts before ascending positions; it starts at position `i`. -/
def cutFrom {α : Type} (i : Nat) : List Nat → List α → List (List α)
  | [], xs => [xs]
  | p :: points, xs => xs.take (p - i) :: cutFrom p points (xs.drop (p - i))

theorem flatten_cutFrom {α : Type} (i : Nat) (points : List Nat) (xs : List α) :
    (cutFrom i points xs).flatten = xs := by
  induction points generalizing i xs with
  | nil => simp [cutFrom]
  | cons p points ih => simp [cutFrom, ih]

namespace Issue

def body? (i : Issue) (ts : List Token) : Option Interval :=
  (parameterLists ts)[i.address.functionIndex]?.bind fun l =>
    l.params[i.address.paramIndex]?.map fun param => (Signature.splitLeading ts param).body

def typeIndex? (i : Issue) (ts : List Token) : Option Nat :=
  (i.body? ts).map fun body => body.start + i.typeStart

def variableIndex? (i : Issue) (ts : List Token) : Option Nat :=
  (i.body? ts).bind fun body =>
    (Candidate.variableIndex? (body.slice ts)).map fun v => body.start + v

def target (i : Issue) : Address × Nat := (i.address, i.typeStart)

/-- Whether the piece for an issue may go before the token at a position: at the first token of the
type for a mark; for a union behind that token and not behind the variable. -/
def Admits (i : Issue) (style : Style) (ts : List Token) (p : Nat) : Prop :=
  match style with
  | .mark => i.typeIndex? ts = some p
  | .union => ∃ a b, i.typeIndex? ts = some a ∧ i.variableIndex? ts = some b ∧ a < p ∧ p ≤ b

end Issue

/-- The issues that a plan names with the same type starts. -/
def plannedIssues (file : Path) (src : Bytes) (plan : FilePlan) : List Issue :=
  (scanSource file src).filter fun i => plan.get? i.address == some i.typeStart

namespace Fix

theorem joinWith_cons_append (sep x piece : Bytes) (pieces : List Bytes) :
    Bytes.joinWith sep ((x ++ piece) :: pieces) = x ++ Bytes.joinWith sep (piece :: pieces) := by
  cases pieces <;> simp [Bytes.joinWith]

theorem joinWith_cons {sep piece : Bytes} {pieces : List Bytes} (h : pieces ≠ []) :
    Bytes.joinWith sep (piece :: pieces) = piece ++ sep ++ Bytes.joinWith sep pieces := by
  cases pieces with
  | nil => simp at h
  | cons q qs => rfl

theorem cutFrom_ne_nil {α : Type} (i : Nat) (points : List Nat) (xs : List α) :
    cutFrom i points xs ≠ [] := by
  cases points <;> simp [cutFrom]

/-- A first token that no cut goes before belongs to the first stretch. -/
theorem joinWith_cutFrom_cons (piece : Bytes) {i : Nat} {points : List Nat}
    (h : ∀ p ∈ points, i < p) (t : Token) (rest : List Token) :
    Bytes.joinWith piece ((cutFrom i points (t :: rest)).map Token.source) =
      t.text ++ Bytes.joinWith piece ((cutFrom (i + 1) points rest).map Token.source) := by
  cases points with
  | nil => simp [cutFrom, Bytes.joinWith]
  | cons p points =>
    have hp : i < p := h p (List.mem_cons_self ..)
    obtain ⟨n, rfl⟩ : ∃ n, p = i + 1 + n := ⟨p - (i + 1), by omega⟩
    have hstep : i + 1 + n - i = n + 1 := by omega
    have hstep' : i + 1 + n - (i + 1) = n := by omega
    simp only [cutFrom, hstep, hstep', List.take_succ_cons, List.drop_succ_cons, List.map_cons,
      Token.source_cons]
    exact joinWith_cons_append _ _ _ _

/-- The positions of a list of `n` tokens from position `i` on that a set of points asks to cut. -/
structure CutsAt (points : List Nat) (i n : Nat) (cuts : List Nat) : Prop where
  sorted : cuts.Pairwise (· < ·)
  mem : ∀ p, p ∈ cuts ↔ p ∈ points ∧ i ≤ p ∧ p < i + n

section CutsAt

variable {points cuts : List Nat} {i n : Nat}

theorem CutsAt.eq_nil (h : CutsAt points i 0 cuts) : cuts = [] := by
  apply List.eq_nil_iff_forall_not_mem.2
  intro p hp
  have hbounds := ((h.mem p).1 hp).2
  omega

/-- A cut before the first token is the first one, and the others are those of the rest. -/
theorem CutsAt.of_mem (h : CutsAt points i (n + 1) cuts) (hi : i ∈ points) :
    ∃ later, cuts = i :: later ∧ (∀ p ∈ later, i < p) ∧ CutsAt points (i + 1) n later := by
  have hmem : i ∈ cuts := (h.mem i).2 ⟨hi, by omega, by omega⟩
  cases cuts with
  | nil => simp at hmem
  | cons first later =>
    obtain ⟨hlater, hsorted⟩ := List.pairwise_cons.1 h.sorted
    have hbounds := ((h.mem first).1 (List.mem_cons_self ..)).2
    have hfirst : i = first := by
      rcases List.mem_cons.1 hmem with heq | hbehind
      · exact heq
      · have hlt := hlater i hbehind
        omega
    subst hfirst
    refine ⟨later, rfl, hlater, hsorted, ?_⟩
    intro p
    constructor
    · intro hp
      have hlt := hlater p hp
      obtain ⟨hpoint, hp'⟩ := (h.mem p).1 (List.mem_cons_of_mem i hp)
      exact ⟨hpoint, by omega, by omega⟩
    · intro hp
      obtain ⟨hpoint, hlow, hhigh⟩ := hp
      rcases List.mem_cons.1 ((h.mem p).2 ⟨hpoint, by omega, by omega⟩) with heq | hbehind
      · omega
      · exact hbehind

/-- With no cut before the first token all cuts are those of the rest. -/
theorem CutsAt.of_notMem (h : CutsAt points i (n + 1) cuts) (hi : i ∉ points) :
    (∀ p ∈ cuts, i < p) ∧ CutsAt points (i + 1) n cuts := by
  have hmem : ∀ p, p ∈ cuts ↔ p ∈ points ∧ i + 1 ≤ p ∧ p < i + 1 + n := by
    intro p
    rw [h.mem p]
    have hne : p ∈ points → p ≠ i := fun hp heq => hi (heq ▸ hp)
    constructor
    · intro hp
      have hp' := hne hp.1
      exact ⟨hp.1, by omega, by omega⟩
    · intro hp
      exact ⟨hp.1, by omega, by omega⟩
  exact ⟨fun p hp => ((hmem p).1 hp).2.1, h.sorted, hmem⟩

end CutsAt

/-- Putting a piece before the tokens at some positions is joining the stretches between the cuts
at these positions. -/
theorem insertFrom_eq_joinWith (piece : Bytes) (points : List Nat) {i : Nat} {cuts : List Nat}
    {ts : List Token} (hcuts : CutsAt points i ts.length cuts) :
    insertFrom piece points i ts =
      Bytes.joinWith piece ((cutFrom i cuts ts).map Token.source) := by
  induction ts generalizing i cuts with
  | nil => simp [hcuts.eq_nil, insertFrom, cutFrom, Bytes.joinWith]
  | cons t rest ih =>
    by_cases hi : i ∈ points
    · obtain ⟨later, hlater, hbehind, hrest⟩ := hcuts.of_mem hi
      subst hlater
      have hne : (cutFrom i later (t :: rest)).map Token.source ≠ [] := by
        simp [cutFrom_ne_nil]
      rw [insertFrom, if_pos hi, ih hrest]
      simp only [cutFrom, Nat.sub_self, List.take_zero, List.drop_zero, List.map_cons,
        Token.source_nil]
      rw [joinWith_cons hne, joinWith_cutFrom_cons piece hbehind]
      simp
    · obtain ⟨hbehind, hrest⟩ := hcuts.of_notMem hi
      rw [insertFrom, if_neg hi, ih hrest, joinWith_cutFrom_cons piece hbehind]
      simp

end Fix

namespace Issue

theorem body?_ofCandidate (file : Path) {ts : List Token} {c : Candidate}
    (h : c ∈ candidates ts) : (ofCandidate file ts c).body? ts = some c.finding.regions.body := by
  obtain ⟨l, param, hl, hparam, hinspect⟩ := mem_candidates.1 h
  have haccepts := Candidate.inspect_eq_some.1 hinspect
  simp [body?, ofCandidate, hl, hparam, haccepts.regions_eq]

theorem typeIndex?_ofCandidate (file : Path) {ts : List Token} {c : Candidate}
    (h : c ∈ candidates ts) : (ofCandidate file ts c).typeIndex? ts = some c.typeIndex := by
  rw [typeIndex?, body?_ofCandidate file h]
  rfl

/-- A piece goes to a token of the source, at a place that the issue of its candidate admits. -/
theorem admits_ofCandidate (file : Path) {style : Style} {ts : List Token} {c : Candidate} {p : Nat}
    (h : c ∈ candidates ts) (hp : Fix.insertionPoint style ts c = some p) :
    p < ts.length ∧ (ofCandidate file ts c).Admits style ts p := by
  obtain ⟨_, _, _, _, haccepts⟩ := exists_accepts_of_mem h
  obtain ⟨v, t, hv, hbefore, ht, _, _⟩ := Candidate.locateType_eq_some haccepts.located
  have htype := typeIndex?_ofCandidate file h
  cases style with
  | mark =>
    obtain rfl : c.typeIndex = p := Option.some.inj hp
    have hlt := (List.getElem?_eq_some_iff.1 (Interval.getElem?_slice ht).2).1
    exact ⟨hlt, htype⟩
  | union =>
    have hv' : Candidate.variableIndex? (c.body ts) = some v := hv
    obtain ⟨u, hu, _⟩ := Candidate.variableIndex?_eq_some hv
    have hlt := (List.getElem?_eq_some_iff.1 (Interval.getElem?_slice hu).2).1
    have hend := Fix.typeEnd_bounds (c.body ts) hbefore
    simp only [Fix.insertionPoint, hv'] at hp
    split at hp
    · simp at hp
    · obtain rfl := Option.some.inj hp
      have hvariable : (ofCandidate file ts c).variableIndex? ts =
          some (c.finding.regions.body.start + v) := by
        simp [variableIndex?, body?_ofCandidate file h, hv]
      refine ⟨by omega, c.typeIndex, c.finding.regions.body.start + v, htype, hvariable, ?_, ?_⟩
      · simp only [Candidate.typeIndex]
        omega
      · omega

end Issue

theorem mem_plannedIssues {file : Path} {src : Bytes} {plan : FilePlan} {i : Issue} :
    i ∈ plannedIssues file src plan ↔
      ∃ c ∈ Fix.planned plan (tokenize src), Issue.ofCandidate file (tokenize src) c = i := by
  simp only [plannedIssues, Fix.planned, scanSource, List.mem_filter, List.mem_map]
  constructor
  · rintro ⟨⟨c, hc, rfl⟩, hplan⟩
    exact ⟨c, ⟨hc, hplan⟩, rfl⟩
  · rintro ⟨c, ⟨hc, hplan⟩, rfl⟩
    exact ⟨⟨c, hc, rfl⟩, hplan⟩

/-- What a plan says beside the issues of the source does not count. -/
theorem planned_restrict (file : Path) (src : Bytes) (plan : FilePlan) :
    Fix.planned (plan.restrict ((scanSource file src).map Issue.target)) (tokenize src) =
      Fix.planned plan (tokenize src) := by
  refine List.filter_congr fun c hc => ?_
  have htarget : (c.address, c.finding.type.start) ∈ (scanSource file src).map Issue.target :=
    List.mem_map.2 ⟨_, List.mem_map.2 ⟨c, hc, rfl⟩, rfl⟩
  rw [Bool.eq_iff_iff, beq_iff_eq, beq_iff_eq, FilePlan.get?_restrict]
  exact and_iff_left htarget

/-- The places of pieces are before tokens, and each is one that a planned issue admits. -/
theorem exists_admits_of_mem (file : Path) {src : Bytes} {plan : FilePlan} {style : Style} {p : Nat}
    (hp : p ∈ Fix.insertionPoints style plan (tokenize src)) :
    p < (tokenize src).length ∧
      ∃ i ∈ plannedIssues file src plan, i.Admits style (tokenize src) p := by
  obtain ⟨c, hc, hcp⟩ := List.mem_filterMap.1 hp
  obtain ⟨hlt, hadmits⟩ := Issue.admits_ofCandidate file (List.mem_filter.1 hc).1 hcp
  exact ⟨hlt, _, mem_plannedIssues.2 ⟨c, hc, rfl⟩, hadmits⟩

/-- Each planned issue has a place for a mark. -/
theorem exists_typeIndex?_of_mem {file : Path} {src : Bytes} {plan : FilePlan} {i : Issue}
    (hi : i ∈ plannedIssues file src plan) : ∃ a, i.typeIndex? (tokenize src) = some a ∧
      a ∈ Fix.insertionPoints .mark plan (tokenize src) := by
  obtain ⟨c, hc, hci⟩ := mem_plannedIssues.1 hi
  subst hci
  exact ⟨c.typeIndex, Issue.typeIndex?_ofCandidate file (List.mem_filter.1 hc).1,
    List.mem_filterMap.2 ⟨c, hc, rfl⟩⟩

def Fix.cuts (style : Style) (plan : FilePlan) (ts : List Token) : List Nat :=
  (List.range ts.length).filter (· ∈ insertionPoints style plan ts)

theorem Fix.cutsAt_cuts (style : Style) (plan : FilePlan) (ts : List Token) :
    CutsAt (insertionPoints style plan ts) 0 ts.length (cuts style plan ts) where
  sorted := List.pairwise_lt_range.filter _
  mem p := by
    unfold cuts
    rw [List.mem_filter, List.mem_range, decide_eq_true_eq]
    constructor
    · exact fun hp => ⟨hp.2, by omega, by omega⟩
    · exact fun hp => ⟨by omega, hp.1⟩

theorem Fix.mem_cuts {style : Style} {plan : FilePlan} {ts : List Token} {p : Nat} :
    p ∈ cuts style plan ts ↔ p ∈ insertionPoints style plan ts := by
  rw [(cutsAt_cuts style plan ts).mem p, Nat.zero_add]
  refine and_iff_left_of_imp fun hp => ⟨Nat.zero_le _, ?_⟩
  obtain ⟨c, hc, hcp⟩ := List.mem_filterMap.1 hp
  exact (Issue.admits_ofCandidate ⟨[]⟩ (List.mem_filter.1 hc).1 hcp).1

/-- A fixed text is the source cut before the tokens at some positions, with the piece of the style
at each cut. -/
theorem fixSource_exact (file : Path) (src : Bytes) (plan : FilePlan) (style : Style) :
    ∃ points : List Nat,
      points.Pairwise (· < ·) ∧
      (∀ p ∈ points, p < (tokenize src).length) ∧
      fixSource src plan style =
        Bytes.joinWith style.piece ((cutFrom 0 points (tokenize src)).map Token.source) ∧
      ((cutFrom 0 points (tokenize src)).map Token.source).flatten = src ∧
      (∀ p ∈ points, ∃ i ∈ plannedIssues file src plan, i.Admits style (tokenize src) p) ∧
      (∀ i ∈ plannedIssues file src plan, ∃ a, i.typeIndex? (tokenize src) = some a) ∧
      (style = .mark → ∀ p, p ∈ points ↔
        ∃ i ∈ plannedIssues file src plan, i.typeIndex? (tokenize src) = some p) ∧
      fixSource src plan style =
        fixSource src (plan.restrict ((scanSource file src).map Issue.target)) style := by
  have hmem : ∀ p, p ∈ Fix.cuts style plan (tokenize src) ↔
      p ∈ Fix.insertionPoints style plan (tokenize src) := by
    intro p
    rw [(Fix.cutsAt_cuts style plan (tokenize src)).mem p]
    constructor
    · exact fun hp => hp.1
    · intro hp
      have hlt := (exists_admits_of_mem file hp).1
      exact ⟨hp, by omega, by omega⟩
  refine ⟨Fix.cuts style plan (tokenize src), (Fix.cutsAt_cuts style plan (tokenize src)).sorted,
    ?_, ?_, ?_, ?_, ?_, ?_, ?_⟩
  · exact fun p hp => (exists_admits_of_mem file ((hmem p).1 hp)).1
  · exact Fix.insertFrom_eq_joinWith _ _ (Fix.cutsAt_cuts style plan (tokenize src))
  · rw [← Token.source_flatten, flatten_cutFrom, source_tokenize]
  · exact fun p hp => (exists_admits_of_mem file ((hmem p).1 hp)).2
  · intro i hi
    obtain ⟨a, ha, -⟩ := exists_typeIndex?_of_mem hi
    exact ⟨a, ha⟩
  · intro hstyle p
    subst hstyle
    rw [hmem p]
    constructor
    · exact fun hp => (exists_admits_of_mem file hp).2
    · intro hp
      obtain ⟨i, hi, hip⟩ := hp
      obtain ⟨a, ha, hpoint⟩ := exists_typeIndex?_of_mem hi
      rw [hip] at ha
      rw [Option.some.inj ha]
      exact hpoint
  · simp only [fixSource, Fix.insertionPoints, planned_restrict]

end ExplicitNull
