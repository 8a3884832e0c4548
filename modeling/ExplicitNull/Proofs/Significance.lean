import ExplicitNull.Proofs.Reinspection
import Mathlib.Data.List.Basic

/-!
The analysis without trivia. White space and comments are passed over wherever a parameter list is
read: in finding the occurrences and their parentheses, in cutting a list into parameters, and in
looking for the type, the variable and the default of a parameter. So dropping them from the tokens
of a source leaves the same parameters at the same addresses, each without its trivia.
-/
namespace ExplicitNull

def Token.significant (ts : List Token) : List Token := ts.filter (!·.isTrivia)

namespace Token

theorem significant_cons_of_isTrivia {t : Token} (h : t.isTrivia) (ts : List Token) :
    significant (t :: ts) = significant ts := by simp [significant, h]

theorem significant_cons {t : Token} (h : t.isTrivia = false) (ts : List Token) :
    significant (t :: ts) = t :: significant ts := by simp [significant, h]

theorem significant_append (ts us : List Token) :
    significant (ts ++ us) = significant ts ++ significant us := List.filter_append ..

theorem isPunct_of_isTrivia {t : Token} (h : t.isTrivia) (s : String) : t.isPunct s = false := by
  rw [Bool.eq_false_iff]
  intro hp
  simp [isTrivia, (isPunct_iff.1 hp).1] at h

theorem kind_ne_of_isTrivia {t : Token} {k : Kind} (h : t.isTrivia)
    (hk : Token.isTrivia ⟨k, []⟩ = false) : t.kind ≠ k := by
  rintro rfl
  rw [isTrivia] at h hk
  simp [hk] at h

theorem find?_significant (ts : List Token) (p : Token → Bool) (h : ∀ t, p t → t.isTrivia = false) :
    (significant ts).find? p = ts.find? p := by
  rw [significant, List.find?_filter]
  congr 1
  funext t
  cases hp : p t <;> simp
  exact h t hp

theorem any_significant (ts : List Token) (p : Token → Bool) (h : ∀ t, p t → t.isTrivia = false) :
    (significant ts).any p = ts.any p := by
  rw [significant, List.any_filter]
  congr 1
  funext t
  cases hp : p t <;> simp
  exact h t hp

section

variable {p : Token → Bool} (hp : ∀ t, t.isTrivia → p t)

include hp

/-- Reading on past trivia comes to the same token. -/
theorem dropWhile_significant (ts : List Token) :
    (significant ts).dropWhile p = significant (ts.dropWhile p) := by
  induction ts with
  | nil => rfl
  | cons t ts ih =>
    by_cases ht : t.isTrivia
    · rw [significant_cons_of_isTrivia ht, List.dropWhile_cons_of_pos (hp t ht), ih]
    · rw [Bool.not_eq_true] at ht
      rw [significant_cons ht, List.dropWhile_cons, List.dropWhile_cons, ih]
      split
      · rfl
      · rw [significant_cons ht]

/-- The token that is come to is no trivia. -/
theorem tail_dropWhile_significant (ts : List Token) :
    ((significant ts).dropWhile p).drop 1 = significant ((ts.dropWhile p).drop 1) := by
  rw [dropWhile_significant hp]
  rcases hrest : ts.dropWhile p with _ | ⟨t, rest⟩
  · rfl
  have hnot : p t = false := by
    have := List.head?_dropWhile_not p ts
    simpa [hrest] using this
  have ht : t.isTrivia = false := by
    rw [Bool.eq_false_iff]
    intro ht
    simp [hp t ht] at hnot
  rw [significant_cons ht, List.drop_succ_cons, List.drop_succ_cons, List.drop_zero, List.drop_zero]

end

end Token

theorem Interval.slice_middle {α : Type} (pre mid post : List α) :
    Interval.slice ⟨pre.length, pre.length + mid.length⟩ (pre ++ (mid ++ post)) = mid := by
  simp [slice]

open Token

namespace Signature

def inner? (ts : List Token) : Option (List Token) :=
  (fromOpening? ts).bind fun list => (closingOffset? 0 list).map fun n => (list.take n).drop 1

def inners : List Token → List (List Token)
  | [] => []
  | t :: rest => if t.kind = .keyword then (inner? rest).toList ++ inners rest else inners rest

/-- The tokens of each parameter, where `done` are those read of the one under way. -/
def pieces (depth : Int) (done : List Token) : List Token → List (List Token)
  | [] => if done = [] then [] else [done]
  | t :: rest =>
    if t.isPunct "," ∧ depth = 0 then done :: pieces depth [] rest
    else pieces (depth + nesting t) (done ++ [t]) rest

def groups (ts : List Token) : List (List (List Token)) := (inners ts).map (pieces 0 [])

theorem slice_parentheses? (pre : List Token) (k : Token) (rest : List Token) :
    (parentheses? pre.length rest).map (fun o =>
      Interval.slice ⟨o.1 + 1, o.2⟩ (pre ++ k :: rest)) = inner? rest := by
  rw [parentheses?, inner?]
  rcases hlist : fromOpening? rest with _ | list
  · rfl
  obtain ⟨n, t, hn, rfl, -, -⟩ := fromOpening?_eq_some hlist
  dsimp only
  rw [Option.bind_some, Option.map_map]
  congr 1
  funext offset
  have hsum : pre.length + 1 + (rest.length - (rest.drop n).length) + 1 = pre.length + (n + 2) := by
    rw [List.length_drop]
    omega
  rw [Function.comp_apply, Interval.slice]
  dsimp only
  rw [hsum, List.drop_length_add_append, List.drop_succ_cons, List.drop_take, List.drop_drop]
  congr 1
  omega

theorem slices_occurrencesFrom (pre rest : List Token) :
    (occurrencesFrom pre.length rest).map (fun o =>
      Interval.slice ⟨o.1 + 1, o.2⟩ (pre ++ rest)) = inners rest := by
  induction rest generalizing pre with
  | nil => rfl
  | cons k rest ih =>
    have hlater := ih (pre ++ [k])
    rw [List.length_append, List.append_assoc, List.length_singleton,
      List.singleton_append] at hlater
    rw [occurrencesFrom, inners, ← slice_parentheses? pre k rest, ← hlater]
    split
    · rcases parentheses? pre.length rest with _ | o <;> rfl
    · rfl

theorem slices_splitFrom (depth : Int) (pre done rest post : List Token) :
    (splitFrom depth pre.length (pre.length + done.length) rest).map
      (Interval.slice · (pre ++ (done ++ (rest ++ post)))) = pieces depth done rest := by
  induction rest generalizing depth pre done with
  | nil =>
    rw [splitFrom, pieces]
    by_cases hnil : done = []
    · simp [hnil]
    · have hpos := List.length_pos_iff.2 hnil
      rw [if_pos (by omega), if_neg hnil, List.map_singleton, Interval.slice_middle]
  | cons t rest ih =>
    rw [splitFrom, pieces]
    split
    · have hlater := ih depth (pre ++ (done ++ [t])) []
      simp only [List.length_append, List.length_singleton, List.append_assoc,
        List.singleton_append, List.length_nil, Nat.add_zero, List.nil_append] at hlater
      rw [List.map_cons, Interval.slice_middle, List.cons_append, Nat.add_assoc, hlater]
    · have hlater := ih (depth + nesting t) pre (done ++ [t])
      simp only [List.length_append, List.length_singleton, List.append_assoc,
        List.singleton_append] at hlater
      rw [List.cons_append, Nat.add_assoc, hlater]

theorem slices_parameterLists (ts : List Token) :
    (parameterLists ts).map (fun l => l.params.map (·.slice ts)) = groups ts := by
  have hinner : ∀ o ∈ occurrencesFrom 0 ts,
      (splitParameters ts ⟨o.1 + 1, o.2⟩).map (·.slice ts) =
        pieces 0 [] (Interval.slice ⟨o.1 + 1, o.2⟩ ts) := by
    rintro ⟨opening, closing⟩ ho
    obtain ⟨a, b, t, u, rfl, rfl, hab, -, -, hu, -⟩ := mem_occurrencesFrom ho
    have hb := (List.getElem?_eq_some_iff.1 hu).1
    have hsplit := Interval.eq_take_slice_drop (r := ⟨0 + a + 1, 0 + b⟩) (by dsimp only; omega) ts
    have hlen : (ts.take (0 + a + 1)).length = 0 + a + 1 := by
      rw [List.length_take]
      omega
    have hslices := slices_splitFrom 0 (ts.take (0 + a + 1)) []
      (Interval.slice ⟨0 + a + 1, 0 + b⟩ ts) (ts.drop (0 + b))
    rw [List.nil_append, ← hsplit, List.length_nil, Nat.add_zero, hlen] at hslices
    exact hslices
  have hmap : (occurrencesFrom 0 ts).map (fun o => Interval.slice ⟨o.1 + 1, o.2⟩ ts) = inners ts :=
    slices_occurrencesFrom [] ts
  rw [groups, ← hmap, List.map_map]
  refine Eq.trans ?_ (List.map_congr_left hinner)
  refine List.ext_getElem? fun n => ?_
  rw [parameterLists, List.getElem?_map, List.getElem?_mapIdx, List.getElem?_map, Option.map_map]
  rfl

def Headed (ts : List Token) : Prop := ∀ t ∈ ts.head?, t.isTrivia = false

theorem headed_skipTrivia (ts : List Token) : Headed (skipTrivia ts) := by
  intro t ht
  have hnot := List.head?_dropWhile_not Token.isTrivia ts
  rw [← skipTrivia, Option.mem_def.1 ht] at hnot
  simpa using hnot

theorem headed_skipOptional {p : Token → Bool} {ts : List Token} (h : Headed ts) :
    Headed (skipOptional p ts) := by
  rcases ts with _ | ⟨t, rest⟩
  · exact h
  rw [skipOptional]
  split
  · exact headed_skipTrivia rest
  · exact h

theorem Headed.head?_significant {ts : List Token} (h : Headed ts) :
    (significant ts).head? = ts.head? := by
  rcases ts with _ | ⟨t, rest⟩
  · rfl
  · rw [significant_cons (h t rfl)]
    rfl

theorem Headed.drop_significant {ts : List Token} (h : Headed ts) :
    (significant ts).drop 1 = significant (ts.drop 1) := by
  rcases ts with _ | ⟨t, rest⟩
  · rfl
  · rw [significant_cons (h t rfl)]
    rfl

theorem skipTrivia_significant (ts : List Token) :
    skipTrivia (significant ts) = significant (skipTrivia ts) :=
  dropWhile_significant (fun _ ht => ht) ts

theorem skipOptional_significant {p : Token → Bool} {ts : List Token} (h : Headed ts) :
    skipOptional p (significant ts) = significant (skipOptional p ts) := by
  rcases ts with _ | ⟨t, rest⟩
  · rfl
  rw [significant_cons (h t rfl), skipOptional, skipOptional]
  split
  · exact skipTrivia_significant rest
  · rw [significant_cons (h t rfl)]

theorem fromOpening?_significant (ts : List Token) :
    fromOpening? (significant ts) = (fromOpening? ts).map significant := by
  have hskip := headed_skipTrivia ts
  have hamp := headed_skipOptional (p := (·.isPunct "&")) hskip
  have hname := headed_skipOptional (p := (·.kind == .name)) hamp
  rw [fromOpening?, fromOpening?, skipTrivia_significant, skipOptional_significant hskip,
    skipOptional_significant hamp, hname.head?_significant]
  split <;> rfl

theorem headed_of_fromOpening? {ts list : List Token} (h : fromOpening? ts = some list) :
    Headed list := by
  rw [fromOpening?] at h
  split at h
  · obtain rfl := Option.some.inj h
    exact headed_skipOptional (headed_skipOptional (headed_skipTrivia ts))
  · simp at h

theorem closingOffset?_significant (depth : Nat) (ts : List Token) :
    (closingOffset? depth (significant ts)).map (significant ts).take =
      (closingOffset? depth ts).map fun n => significant (ts.take n) := by
  induction ts generalizing depth with
  | nil => rfl
  | cons t rest ih =>
    by_cases ht : t.isTrivia
    · rw [significant_cons_of_isTrivia ht, ih, closingOffset?, isPunct_of_isTrivia ht,
        isPunct_of_isTrivia ht, if_neg (by simp), if_neg (by simp), Option.map_map]
      congr 1
      funext n
      rw [Function.comp_apply, List.take_succ_cons, significant_cons_of_isTrivia ht]
    rw [Bool.not_eq_true] at ht
    have hcons : ∀ depth,
        ((closingOffset? depth (significant rest)).map (· + 1)).map (t :: significant rest).take =
        ((closingOffset? depth rest).map (· + 1)).map fun n => significant ((t :: rest).take n) := by
      intro depth
      have hmap := congrArg (Option.map (List.cons t)) (ih depth)
      simp only [Option.map_map, Function.comp_def] at hmap
      simpa only [Option.map_map, Function.comp_def, List.take_succ_cons, significant_cons ht]
        using hmap
    rw [significant_cons ht, closingOffset?, closingOffset?]
    split
    · exact hcons (depth + 1)
    · split
      · split
        · rfl
        · exact hcons (depth - 1)
      · exact hcons depth

theorem inner?_significant (ts : List Token) :
    inner? (significant ts) = (inner? ts).map significant := by
  rw [inner?, inner?, fromOpening?_significant]
  rcases hlist : fromOpening? ts with _ | list
  · rfl
  have hheaded : ∀ n, Headed (list.take n) := by
    intro n t ht
    rw [List.head?_take] at ht
    split at ht
    · simp at ht
    · exact headed_of_fromOpening? hlist t ht
  have hclosing := congrArg (Option.map (List.drop 1)) (closingOffset?_significant 0 list)
  simp only [Option.map_map, Function.comp_def, (hheaded _).drop_significant] at hclosing
  simpa only [Option.map_some, Option.bind_some, Option.map_map, Function.comp_def] using hclosing

theorem inners_significant (ts : List Token) :
    inners (significant ts) = (inners ts).map significant := by
  induction ts with
  | nil => rfl
  | cons t rest ih =>
    rw [inners]
    by_cases ht : t.isTrivia
    · rw [significant_cons_of_isTrivia ht, ih, if_neg (kind_ne_of_isTrivia ht rfl)]
    · rw [Bool.not_eq_true] at ht
      rw [significant_cons ht, inners, ih, inner?_significant]
      split
      · rw [List.map_append, Option.toList_map]
      · rfl

theorem nesting_of_isTrivia {t : Token} (h : t.isTrivia) : nesting t = 0 := by
  have hkind : t.kind ≠ .attributeOpen := kind_ne_of_isTrivia h rfl
  simp [nesting, hkind, isPunct_of_isTrivia h]

/-- Without trivia there are the same parameters, but for one of trivia alone at the end. -/
theorem pieces_significant (depth : Int) (done ts : List Token) :
    ∃ tail, (pieces depth done ts).map significant =
      pieces depth (significant done) (significant ts) ++ tail ∧ ∀ x ∈ tail, x = [] := by
  induction ts generalizing depth done with
  | nil =>
    have hnil : significant [] = [] := rfl
    rw [hnil, pieces, pieces]
    by_cases hdone : done = []
    · exact ⟨[], by simp [hdone, hnil], by simp⟩
    · rw [if_neg hdone]
      by_cases hsig : significant done = []
      · exact ⟨[[]], by simp [hsig], by simp⟩
      · exact ⟨[], by simp [hsig], by simp⟩
  | cons t rest ih =>
    rw [pieces]
    by_cases ht : t.isTrivia
    · rw [significant_cons_of_isTrivia ht, isPunct_of_isTrivia ht, if_neg (by simp),
        nesting_of_isTrivia ht, Int.add_zero]
      obtain ⟨tail, htail, hall⟩ := ih depth (done ++ [t])
      rw [significant_append, significant_cons_of_isTrivia ht] at htail
      exact ⟨tail, by simpa [significant] using htail, hall⟩
    · rw [Bool.not_eq_true] at ht
      rw [significant_cons ht, pieces]
      split
      · obtain ⟨tail, htail, hall⟩ := ih depth []
        exact ⟨tail, by rw [List.map_cons, htail]; rfl, hall⟩
      · obtain ⟨tail, htail, hall⟩ := ih (depth + nesting t) (done ++ [t])
        rw [significant_append, significant_cons ht] at htail
        exact ⟨tail, htail, hall⟩

end Signature

/-- What is told from the tokens of each parameter, with its address. -/
def entries {β : Type} (f : List Token → Option β) (ts : List Token) : List (Address × β) :=
  (parameterLists ts).flatMap fun l =>
    l.params.zipIdx.filterMap fun x => (f (x.1.slice ts)).map (Prod.mk ⟨l.functionIndex, x.2⟩)

section

variable {β : Type} {f : List Token → Option β} {ts : List Token}

theorem mem_entries {a : Address} {y : β} : (a, y) ∈ entries f ts ↔
    ∃ l param, (parameterLists ts)[a.functionIndex]? = some l ∧
      l.params[a.paramIndex]? = some param ∧ f (param.slice ts) = some y := by
  obtain ⟨functionIndex, paramIndex⟩ := a
  simp only [entries, List.mem_flatMap, List.mem_filterMap, Prod.exists]
  constructor
  · rintro ⟨l, hl, param, k, hparam, hsome⟩
    obtain ⟨z, hz, heq⟩ := Option.map_eq_some_iff.1 hsome
    obtain ⟨⟨rfl, rfl⟩, rfl⟩ := by simpa using heq
    obtain ⟨n, hn⟩ := List.getElem?_of_mem hl
    rw [functionIndex_of_getElem? hn]
    exact ⟨l, param, hn, by simpa using List.mem_zipIdx_iff_getElem?.1 hparam, hz⟩
  · rintro ⟨l, param, hl, hparam, hy⟩
    refine ⟨l, List.mem_of_getElem? hl, param, paramIndex, ?_, ?_⟩
    · simpa [List.mem_zipIdx_iff_getElem?] using hparam
    · simp [hy, functionIndex_of_getElem? hl]

/-- An address tells what is told at it. -/
theorem entries_unique {x y : Address × β} (hx : x ∈ entries f ts) (hy : y ∈ entries f ts)
    (h : x.1 = y.1) : x = y := by
  obtain ⟨a, u⟩ := x
  obtain ⟨b, v⟩ := y
  obtain rfl : a = b := h
  obtain ⟨l, param, hl, hparam, hu⟩ := mem_entries.1 hx
  obtain ⟨l', param', hl', hparam', hv⟩ := mem_entries.1 hy
  obtain rfl := Option.some.inj (hl.symm.trans hl')
  obtain rfl := Option.some.inj (hparam.symm.trans hparam')
  obtain rfl := Option.some.inj (hu.symm.trans hv)
  rfl

/-- The same by the tokens of the parameters alone, without their positions. -/
theorem entries_eq (f : List Token → Option β) (ts : List Token) :
    entries f ts = (Signature.groups ts).zipIdx.flatMap fun g =>
      g.1.zipIdx.filterMap fun x => (f x.1).map (Prod.mk ⟨g.2, x.2⟩) := by
  have hgroups : (Signature.groups ts).zipIdx =
      (parameterLists ts).map fun l => (l.params.map (·.slice ts), l.functionIndex) := by
    refine List.ext_getElem? fun n => ?_
    rw [List.getElem?_zipIdx, ← Signature.slices_parameterLists, List.getElem?_map,
      List.getElem?_map, Option.map_map]
    rcases hl : (parameterLists ts)[n]? with _ | l
    · rfl
    · simp [functionIndex_of_getElem? hl]
  rw [entries, hgroups, List.flatMap_map]
  refine List.flatMap_congr fun l _ => ?_
  rw [List.zipIdx_map, List.filterMap_map]
  rfl

/-- What is told of a parameter whatever its trivia is told at the same address without trivia. -/
theorem entries_significant {g : β → β} (hnil : f [] = none)
    (hf : ∀ tokens, f (significant tokens) = (f tokens).map g) (ts : List Token) :
    entries f (significant ts) = (entries f ts).map (Prod.map id g) := by
  rw [entries_eq, entries_eq, Signature.groups, Signature.groups, Signature.inners_significant,
    List.map_map, List.zipIdx_map, List.zipIdx_map, List.flatMap_map, List.flatMap_map,
    List.map_flatMap]
  refine List.flatMap_congr fun inner _ => ?_
  obtain ⟨tail, htail, hall⟩ := Signature.pieces_significant 0 [] inner.1
  have hnone : ∀ n, (tail.zipIdx n).filterMap (fun x =>
      (f x.1).map (Prod.mk (⟨inner.2, x.2⟩ : Address))) = [] := by
    intro n
    refine List.filterMap_eq_nil_iff.2 fun x hx => ?_
    rw [hall x.1 (List.fst_mem_of_mem_zipIdx hx), hnil]
    rfl
  have hpieces := congrArg (fun ps => ps.zipIdx.filterMap fun x =>
    (f x.1).map (Prod.mk (⟨inner.2, x.2⟩ : Address))) htail
  simp only [List.zipIdx_append, List.filterMap_append, hnone, List.append_nil, List.zipIdx_map,
    List.filterMap_map] at hpieces
  refine hpieces.symm.trans ?_
  rw [List.map_filterMap]
  refine List.filterMap_congr fun x _ => ?_
  simp [hf, Function.comp_def]

end

end ExplicitNull
