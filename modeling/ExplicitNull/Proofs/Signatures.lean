import ExplicitNull.Source.Signature
import Mathlib.Tactic.Conv

/-!
What stands around a parameter. Before it there is the opening parenthesis of its list or a comma,
behind it a comma or the closing parenthesis, so the tokens of a source fall apart into those before
the parameter, the parameter itself and those behind it.
-/
namespace ExplicitNull

def Token.opensParameter (t : Token) : Bool := t.isPunct "(" || t.isPunct ","

def Token.closesParameter (t : Token) : Bool := t.isPunct ")" || t.isPunct ","

theorem Token.isPunct_iff {t : Token} {s : String} :
    t.isPunct s = true ↔ t.kind = .punct ∧ t.text = utf8 s := by
  simp [isPunct]

theorem Interval.eq_take_slice_drop {α : Type} {r : Interval} (hle : r.start ≤ r.stop)
    (xs : List α) : xs = xs.take r.start ++ (r.slice xs ++ xs.drop r.stop) := by
  have hdrop : xs.drop r.stop = (xs.drop r.start).drop (r.stop - r.start) := by
    rw [List.drop_drop, Nat.add_sub_cancel' hle]
  rw [slice, hdrop, List.take_append_drop, List.take_append_drop]

namespace Signature

theorem exists_skipTrivia_eq_drop (ts : List Token) :
    ∃ n ≤ ts.length, skipTrivia ts = ts.drop n := by
  obtain ⟨pre, hpre⟩ := List.dropWhile_suffix (l := ts) Token.isTrivia
  refine ⟨pre.length, ?_, ?_⟩
  · rw [← hpre]
    simp
  · conv_rhs => rw [← hpre]
    rw [List.drop_left]
    rfl

theorem exists_skipOptional_eq_drop (p : Token → Bool) (ts : List Token) :
    ∃ n ≤ ts.length, skipOptional p ts = ts.drop n := by
  cases ts with
  | nil => exact ⟨0, Nat.le_refl _, rfl⟩
  | cons t rest =>
    rw [skipOptional]
    split
    · obtain ⟨n, hn, heq⟩ := exists_skipTrivia_eq_drop rest
      exact ⟨n + 1, by simpa using hn, heq⟩
    · exact ⟨0, Nat.zero_le _, rfl⟩

theorem fromOpening?_eq_some {rest list : List Token} (h : fromOpening? rest = some list) :
    ∃ n t, n ≤ rest.length ∧ list = rest.drop n ∧ rest[n]? = some t ∧ t.isPunct "(" := by
  unfold fromOpening? at h
  extract_lets skipped at h
  split at h
  · rename_i hopen
    obtain rfl := Option.some.inj h
    obtain ⟨a, ha, hskip⟩ := exists_skipTrivia_eq_drop rest
    obtain ⟨b, hb, hamp⟩ := exists_skipOptional_eq_drop (·.isPunct "&") (rest.drop a)
    obtain ⟨c, hc, hname⟩ := exists_skipOptional_eq_drop (·.kind == .name) ((rest.drop a).drop b)
    have hdrop : skipped = rest.drop (a + b + c) := by
      simp only [skipped]
      rw [hskip, hamp, hname, List.drop_drop, List.drop_drop, Nat.add_assoc]
    simp only [List.length_drop] at hb hc
    rcases hhead : skipped.head? with _ | t
    · simp [hhead] at hopen
    · rw [hhead, Option.any_some] at hopen
      rw [hdrop, List.head?_drop] at hhead
      exact ⟨a + b + c, t, by omega, hdrop, hhead, hopen⟩
  · simp at h

theorem closingOffset?_eq_some {depth offset : Nat} {ts : List Token}
    (h : closingOffset? depth ts = some offset) :
    ∃ t, ts[offset]? = some t ∧ t.isPunct ")" := by
  induction ts generalizing depth offset with
  | nil => simp [closingOffset?] at h
  | cons t rest ih =>
    rw [closingOffset?] at h
    split at h
    · obtain ⟨n, hn, rfl⟩ := Option.map_eq_some_iff.1 h
      exact ih hn
    · split at h
      · rename_i hclose
        split at h
        · obtain rfl := Option.some.inj h
          exact ⟨t, rfl, hclose⟩
        · obtain ⟨n, hn, rfl⟩ := Option.map_eq_some_iff.1 h
          exact ih hn
      · obtain ⟨n, hn, rfl⟩ := Option.map_eq_some_iff.1 h
        exact ih hn

/-- Tokens without a function keyword hold no function. -/
theorem occurrencesFrom_append {before : List Token} (hbefore : ∀ t ∈ before, t.kind ≠ .keyword)
    (i : Nat) (ts : List Token) :
    occurrencesFrom i (before ++ ts) = occurrencesFrom (i + before.length) ts := by
  induction before generalizing i with
  | nil => rfl
  | cons t before ih =>
    rw [List.cons_append, occurrencesFrom, if_neg (hbefore t (List.mem_cons_self ..)),
      ih fun u hu => hbefore u (List.mem_cons_of_mem _ hu), List.length_cons, Nat.add_assoc,
      Nat.add_comm 1]

theorem mem_occurrencesFrom {i opening closing : Nat} {ts : List Token}
    (h : (opening, closing) ∈ occurrencesFrom i ts) :
    ∃ a b t u, opening = i + a ∧ closing = i + b ∧ a < b ∧ ts[a]? = some t ∧ t.isPunct "(" ∧
      ts[b]? = some u ∧ u.isPunct ")" := by
  induction ts generalizing i with
  | nil => simp [occurrencesFrom] at h
  | cons k rest ih =>
    have hlater : (opening, closing) ∈ occurrencesFrom (i + 1) rest →
        ∃ a b t u, opening = i + a ∧ closing = i + b ∧ a < b ∧ (k :: rest)[a]? = some t ∧
          t.isPunct "(" ∧ (k :: rest)[b]? = some u ∧ u.isPunct ")" := by
      intro hmem
      obtain ⟨a, b, t, u, rfl, rfl, hab, ht, htp, hu, hup⟩ := ih hmem
      exact ⟨a + 1, b + 1, t, u, by omega, by omega, by omega, ht, htp, hu, hup⟩
    rw [occurrencesFrom] at h
    split at h
    · split at h
      · rename_i o ho
        rcases List.mem_cons.1 h with rfl | hmem
        · unfold parentheses? at ho
          split at ho
          · simp at ho
          · rename_i list hlist
            obtain ⟨offset, hoffset, hpair⟩ := Option.map_eq_some_iff.1 ho
            obtain ⟨hopening, hclosing⟩ := Prod.mk.inj hpair
            obtain ⟨n, t, hn, rfl, ht, htp⟩ := fromOpening?_eq_some hlist
            obtain ⟨u, hu, hup⟩ := closingOffset?_eq_some hoffset
            rw [List.getElem?_drop] at hu
            rw [List.length_drop] at hopening hclosing
            have hne : offset ≠ 0 := by
              rintro rfl
              obtain rfl : t = u := Option.some.inj (ht.symm.trans hu)
              have htext := (Token.isPunct_iff.1 htp).2.symm.trans (Token.isPunct_iff.1 hup).2
              revert htext
              decide
            exact ⟨n + 1, n + offset + 1, t, u, by omega, by omega, by omega, ht, htp, hu, hup⟩
        · exact hlater hmem
      · exact hlater h
    · exact hlater h

theorem mem_splitFrom {depth : Int} {start i : Nat} {xs : List Token} {r : Interval}
    (hstart : start ≤ i) (h : r ∈ splitFrom depth start i xs) :
    r.start ≤ r.stop ∧ r.stop ≤ i + xs.length ∧
      (r.start = start ∨ ∃ k t, r.start = i + k + 1 ∧ xs[k]? = some t ∧ t.isPunct ",") ∧
      (r.stop = i + xs.length ∨ ∃ k t, r.stop = i + k ∧ xs[k]? = some t ∧ t.isPunct ",") := by
  induction xs generalizing depth start i with
  | nil =>
    rw [splitFrom] at h
    split at h
    · obtain rfl := List.mem_singleton.1 h
      exact ⟨hstart, Nat.le_refl _, .inl rfl, .inl rfl⟩
    · simp at h
  | cons t rest ih =>
    rw [splitFrom] at h
    split at h
    · rename_i hcomma
      rcases List.mem_cons.1 h with rfl | hmem
      · exact ⟨hstart, by simp, .inl rfl, .inr ⟨0, t, rfl, rfl, hcomma.1⟩⟩
      · obtain ⟨hle, hstop, hfrom, hto⟩ := ih (Nat.le_refl _) hmem
        refine ⟨hle, by simp only [List.length_cons]; omega, .inr ?_, ?_⟩
        · rcases hfrom with hfrom | ⟨k, u, hk, hu, hup⟩
          · exact ⟨0, t, by omega, rfl, hcomma.1⟩
          · exact ⟨k + 1, u, by omega, hu, hup⟩
        · rcases hto with hto | ⟨k, u, hk, hu, hup⟩
          · exact .inl (by simp only [List.length_cons]; omega)
          · exact .inr ⟨k + 1, u, by omega, hu, hup⟩
    · obtain ⟨hle, hstop, hfrom, hto⟩ := ih (by omega) h
      refine ⟨hle, by simp only [List.length_cons]; omega, ?_, ?_⟩
      · rcases hfrom with hfrom | ⟨k, u, hk, hu, hup⟩
        · exact .inl hfrom
        · exact .inr ⟨k + 1, u, by omega, hu, hup⟩
      · rcases hto with hto | ⟨k, u, hk, hu, hup⟩
        · exact .inl (by simp only [List.length_cons]; omega)
        · exact .inr ⟨k + 1, u, by omega, hu, hup⟩

end Signature

/-- The positions and the tokens around the parentheses of a list. -/
theorem exists_parentheses_of_mem {ts : List Token} {l : ParamList} (h : l ∈ parameterLists ts) :
    ∃ t u, l.opening < l.closing ∧ ts[l.opening]? = some t ∧ t.isPunct "(" ∧
      ts[l.closing]? = some u ∧ u.isPunct ")" ∧
      l.params = Signature.splitParameters ts ⟨l.opening + 1, l.closing⟩ := by
  obtain ⟨k, hk, rfl⟩ := List.mem_mapIdx.1 h
  have hmem := List.getElem_mem hk
  generalize (Signature.occurrencesFrom 0 ts)[k] = pair at hmem ⊢
  obtain ⟨opening, closing⟩ := pair
  obtain ⟨a, b, t, u, rfl, rfl, hab, ht, htp, hu, hup⟩ := Signature.mem_occurrencesFrom hmem
  rw [Nat.zero_add, Nat.zero_add]
  exact ⟨t, u, hab, ht, htp, hu, hup, rfl⟩

/-- The positions and the tokens around a parameter. -/
theorem exists_around_of_mem {ts : List Token} {l : ParamList} {param : Interval}
    (hl : l ∈ parameterLists ts) (hparam : param ∈ l.params) :
    ∃ n t u, param.start = n + 1 ∧ param.start ≤ param.stop ∧ ts[n]? = some t ∧ t.opensParameter ∧
      ts[param.stop]? = some u ∧ u.closesParameter := by
  obtain ⟨t, u, hlt, ht, htp, hu, hup, hparams⟩ := exists_parentheses_of_mem hl
  rw [hparams] at hparam
  obtain ⟨hle, hstop, hfrom, hto⟩ := Signature.mem_splitFrom (Nat.le_refl _) hparam
  have hlen : (Interval.slice ⟨l.opening + 1, l.closing⟩ ts).length = l.closing - (l.opening + 1) := by
    have := (List.getElem?_eq_some_iff.1 hu).1
    simp only [Interval.slice, List.length_take, List.length_drop]
    omega
  have hinner : ∀ k v, (Interval.slice ⟨l.opening + 1, l.closing⟩ ts)[k]? = some v →
      ts[l.opening + 1 + k]? = some v := by
    intro k v hk
    rw [Interval.slice, List.getElem?_take] at hk
    split at hk
    · rwa [List.getElem?_drop] at hk
    · simp at hk
  rw [hlen] at hto
  dsimp only at hfrom hto
  obtain ⟨n, t', hn, ht', hopens⟩ : ∃ n t, param.start = n + 1 ∧ ts[n]? = some t ∧
      t.opensParameter := by
    rcases hfrom with hfrom | ⟨k, v, hk, hv, hvp⟩
    · exact ⟨l.opening, t, hfrom, ht, by simp [Token.opensParameter, htp]⟩
    · exact ⟨l.opening + 1 + k, v, hk, hinner k v hv, by simp [Token.opensParameter, hvp]⟩
  obtain ⟨u', hu', hcloses⟩ : ∃ u, ts[param.stop]? = some u ∧ u.closesParameter := by
    rcases hto with hto | ⟨k, v, hk, hv, hvp⟩
    · have heq : param.stop = l.closing := by omega
      exact ⟨u, heq ▸ hu, by simp [Token.closesParameter, hup]⟩
    · exact ⟨v, hk ▸ hinner k v hv, by simp [Token.closesParameter, hvp]⟩
  exact ⟨n, t', u', hn, hle, ht', hopens, hu', hcloses⟩

/-- A source falls apart around each of its parameters. -/
theorem exists_split_of_mem {ts : List Token} {l : ParamList} {param : Interval}
    (hl : l ∈ parameterLists ts) (hparam : param ∈ l.params) :
    ∃ pre t u post, ts = pre ++ t :: (param.slice ts ++ u :: post) ∧
      param.start = pre.length + 1 ∧ param.stop = param.start + (param.slice ts).length ∧
      t.opensParameter ∧ u.closesParameter := by
  obtain ⟨n, t, u, hn, hle, ht, hopens, hu, hcloses⟩ := exists_around_of_mem hl hparam
  obtain ⟨hnlt, rfl⟩ := List.getElem?_eq_some_iff.1 ht
  obtain ⟨hstop, rfl⟩ := List.getElem?_eq_some_iff.1 hu
  have hlen : (param.slice ts).length = param.stop - param.start := by
    simp only [Interval.slice, List.length_take, List.length_drop]
    omega
  refine ⟨ts.take n, ts[n], ts[param.stop], ts.drop (param.stop + 1), ?_, ?_, by omega, hopens,
    hcloses⟩
  · rw [← List.singleton_append, ← List.append_assoc, ← List.drop_eq_getElem_cons hstop,
      List.take_append_getElem hnlt, ← hn]
    exact Interval.eq_take_slice_drop hle ts
  · rw [List.length_take]
    omega

end ExplicitNull
