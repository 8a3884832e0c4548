import ExplicitNull.Proofs.LeadingGroups
import ExplicitNull.Proofs.Lossless
import ExplicitNull.Proofs.Plans
import ExplicitNull.Proofs.TypeRuns

/-!
Issues lead back to the source. There is one for each parameter that passes its inspection, in the
order of their addresses. The address leads to the parameter, the body of the parameter and the
start of the type to a token of the source before the first variable, and the lines counted along
the tokens are those of the text before that token.
-/
namespace ExplicitNull

theorem Address.compare_eq_lt_iff {a b : Address} : a.compare b = .lt ↔
    a.functionIndex < b.functionIndex ∨
      a.functionIndex = b.functionIndex ∧ a.paramIndex < b.paramIndex := by
  rw [Address.compare, Ordering.then_eq_lt, Nat.compare_eq_lt, Nat.compare_eq_eq, Nat.compare_eq_lt]

def Accepted (ts : List Token) (a : Address) : Prop :=
  ∃ l param, (parameterLists ts)[a.functionIndex]? = some l ∧ l.params[a.paramIndex]? = some param ∧
    (Candidate.inspect ts param).isSome

/-- The body of a parameter cut at the first token of its type, behind the type and at the first
variable. -/
structure BodyCut (body front : List Token) (first : Token) (type between : List Token)
    (var : Token) : Prop where
  body_eq : ∃ behind, body = front ++ first :: (type ++ (between ++ var :: behind))
  before_var : ∀ t ∈ front ++ first :: (type ++ between), t.kind ≠ .variableName
  var_kind : var.kind = .variableName

/-- What an issue says of the body of its parameter and of the source, which is cut before the first
token of the type and behind the type. -/
structure Issue.Describes (i : Issue) (src : Bytes) (body : Interval) (before after : Bytes)
    (front : List Token) (first : Token) (type between : List Token) (var : Token) : Prop where
  cut : BodyCut (body.slice (tokenize src)) front first type between var
  typeStart_eq : i.typeStart = front.length
  token : (tokenize src)[body.start + i.typeStart]? = some first
  before_eq : before = Token.source ((tokenize src).take (body.start + i.typeStart))
  src_eq : src = before ++ Token.source (first :: type) ++ after
  parameter_eq : i.parameter = var.text
  line_eq : src.count (byte '\n') < UInt32.size - 1 → i.line = 1 + before.count (byte '\n')
  typeName_eq : i.typeName = Blank.trim (Token.source (first :: type))
  typeName_ne_nil : i.typeName ≠ []
  typeName_head : i.typeName.head? ≠ some (byte '?')

/-! ### Order -/

namespace Candidate

theorem pairwise_ofList (ts : List Token) (l : ParamList) :
    (ofList ts l).Pairwise fun c d => c.address.compare d.address = .lt := by
  rw [ofList, List.pairwise_filterMap, List.pairwise_iff_getElem]
  intro i j hi hj hij c hc d hd
  rw [List.getElem_mapIdx] at hc hd
  obtain ⟨_, _, rfl⟩ := Option.map_eq_some_iff.1 hc
  obtain ⟨_, _, rfl⟩ := Option.map_eq_some_iff.1 hd
  exact Address.compare_eq_lt_iff.2 (.inr ⟨rfl, hij⟩)

end Candidate

/-- Candidates come in the order of their addresses. -/
theorem pairwise_candidates (ts : List Token) :
    (candidates ts).Pairwise fun c d => c.address.compare d.address = .lt := by
  rw [candidates, List.pairwise_flatMap]
  refine ⟨fun l _ => Candidate.pairwise_ofList ts l, List.pairwise_iff_getElem.2 ?_⟩
  intro i j hi hj hij c hc d hd
  have hfirst := functionIndex_of_getElem? (List.getElem?_eq_getElem hi)
  have hsecond := functionIndex_of_getElem? (List.getElem?_eq_getElem hj)
  refine Address.compare_eq_lt_iff.2 (.inl ?_)
  rw [(Candidate.mem_ofList.1 hc).1, (Candidate.mem_ofList.1 hd).1, hfirst, hsecond]
  exact hij

theorem exists_candidate_iff {ts : List Token} {a : Address} :
    (∃ c ∈ candidates ts, c.address = a) ↔ Accepted ts a := by
  constructor
  · rintro ⟨c, hc, rfl⟩
    obtain ⟨l, param, hl, hparam, hf⟩ := mem_candidates.1 hc
    exact ⟨l, param, hl, hparam, by rw [hf]; rfl⟩
  · rintro ⟨l, param, hl, hparam, hsome⟩
    obtain ⟨f, hf⟩ := Option.isSome_iff_exists.1 hsome
    exact ⟨⟨a, f⟩, mem_candidates.2 ⟨l, param, hl, hparam, hf⟩, rfl⟩

/-! ### Lines -/

namespace Issue

/-- The count along the tokens is that of the text before a token, as far as 32 bits go. -/
theorem getElem?_tokenLines (line : UInt32) {ts : List Token} {i : Nat} (h : i < ts.length) :
    (tokenLines line ts)[i]? =
      some (line + ((Token.source (ts.take i)).count (byte '\n')).toUInt32) := by
  induction ts generalizing line i with
  | nil => simp at h
  | cons t rest ih =>
    rw [tokenLines]
    rcases i with _ | i
    · simp
    · have hnext := ih (line + (t.text.count (byte '\n')).toUInt32) (i := i) (by simpa using h)
      rw [List.getElem?_cons_succ, hnext, List.take_succ_cons, Token.source_cons, List.count_append,
        UInt32.add_assoc]
      congr 2
      exact (UInt32.ofNat_add _ _).symm

theorem lineAt_eq {ts : List Token} {i : Nat} (h : i < ts.length)
    (hlines : (Token.source ts).count (byte '\n') < UInt32.size - 1) :
    lineAt ts i = 1 + (Token.source (ts.take i)).count (byte '\n') := by
  have hsplit := congrArg Token.source (List.take_append_drop i ts)
  rw [Token.source_append] at hsplit
  have hle : (Token.source (ts.take i)).count (byte '\n') ≤
      (Token.source ts).count (byte '\n') := by
    rw [← hsplit, List.count_append]
    exact Nat.le_add_right _ _
  rw [lineAt, getElem?_tokenLines 1 h, Option.map_some, Option.getD_some, UInt32.toNat_add]
  generalize (Token.source (ts.take i)).count (byte '\n') = n at hle ⊢
  have hsize : UInt32.size = 2 ^ 32 := rfl
  have hn : n.toUInt32.toNat = n := UInt32.toNat_ofNat_of_lt' (by omega)
  have hone : (1 : UInt32).toNat = 1 := rfl
  rw [hn, hone]
  omega

end Issue

/-! ### Coordinates -/

namespace Candidate

theorem typeRun_not_variable {ts : List Token} : ∀ t ∈ typeRun ts, t.kind ≠ .variableName := by
  induction ts with
  | nil => simp [typeRun]
  | cons t rest ih =>
    rw [typeRun]
    split
    · simp
    · rename_i hends
      intro u hu
      rcases List.mem_cons.1 hu with rfl | hu
      · intro hkind
        exact hends (by simp [endsType, hkind])
      · exact ih u hu

/-- A body can be cut behind its type and at its first variable. -/
theorem TypeAt.exists_cut {body front behind : List Token} {first : Token}
    (h : TypeAt body front first behind) (hne : typeRun (first :: behind) ≠ []) :
    ∃ type between var, typeRun (first :: behind) = first :: type ∧
      BodyCut body front first type between var := by
  obtain ⟨rfl, hfront, _, hfirst, u, hu, hvariable⟩ := h
  obtain ⟨type, htype⟩ : ∃ type, typeRun (first :: behind) = first :: type := by
    rw [typeRun] at hne ⊢
    split at hne
    · exact absurd rfl hne
    · rename_i hends
      exact ⟨_, if_neg hends⟩
  have hnot : ∀ t ∈ first :: type, t.kind ≠ .variableName := htype ▸ typeRun_not_variable
  obtain ⟨more, hmore⟩ := typeRun_prefix (first :: behind)
  rw [htype, List.cons_append] at hmore
  obtain rfl := (List.cons.inj hmore).2
  have humore : u ∈ more := by
    rcases List.mem_append.1 hu with hu | hu
    · exact absurd hvariable (hnot u (List.mem_cons_of_mem _ hu))
    · exact hu
  rcases hrest : more.dropWhile (·.kind != .variableName) with _ | ⟨var, rest⟩
  · have := List.dropWhile_eq_nil_iff.1 hrest u humore
    simp [hvariable] at this
  have hkind : var.kind = .variableName := by
    have hhead := List.head?_dropWhile_not (fun t : Token => t.kind != .variableName) more
    simpa [hrest] using hhead
  refine ⟨type, more.takeWhile (·.kind != .variableName), var, htype, ⟨rest, ?_⟩, ?_, hkind⟩
  · rw [← hrest, List.takeWhile_append_dropWhile]
  · intro t ht
    rw [← List.cons_append] at ht
    rcases List.mem_append.1 ht with ht | ht
    · exact (hfront t ht).2
    rcases List.mem_append.1 ht with ht | ht
    · exact hnot t ht
    · simpa using List.mem_takeWhile_imp ht

end Candidate

theorem BodyCut.find?_variable {body front type between : List Token} {first var : Token}
    (h : BodyCut body front first type between var) :
    body.find? (·.kind == .variableName) = some var := by
  obtain ⟨⟨behind, rfl⟩, hbefore, hkind⟩ := h
  have hsplit : front ++ first :: (type ++ (between ++ var :: behind)) =
      (front ++ first :: (type ++ between)) ++ var :: behind := by simp
  have hnone : (front ++ first :: (type ++ between)).find? (·.kind == .variableName) = none :=
    List.find?_eq_none.2 fun t ht => by simpa using hbefore t ht
  rw [hsplit, List.find?_append, hnone, List.find?_cons_of_pos (by simp [hkind])]
  rfl

/-- Where the type of a parameter stands among the tokens of the source. -/
theorem BodyCut.exists_source {ts front type between : List Token} {first var : Token}
    {body : Interval} (h : BodyCut (body.slice ts) front first type between var) :
    ts[body.start + front.length]? = some first ∧
      ∃ after, Token.source ts = Token.source (ts.take (body.start + front.length)) ++
        Token.source (first :: type) ++ after := by
  obtain ⟨⟨behind, hslice⟩, _, _⟩ := h
  have hfirst : (body.slice ts)[front.length]? = some first := by
    rw [hslice]
    simp
  obtain ⟨more, hmore⟩ : body.slice ts <+: ts.drop body.start := List.take_prefix _ _
  have hdrop : ts.drop (body.start + front.length) =
      (first :: type) ++ (between ++ var :: behind ++ more) := by
    rw [← List.drop_drop, ← hmore, hslice, List.append_assoc, List.drop_left]
    simp
  refine ⟨(Interval.getElem?_slice hfirst).2,
    Token.source (between ++ var :: behind ++ more), ?_⟩
  conv_lhs => rw [← List.take_append_drop (body.start + front.length) ts, hdrop]
  rw [Token.source_append, Token.source_append, ← List.append_assoc]

/-- An issue describes the parameter at its address. -/
theorem exists_describes_of_mem {file : Path} {src : Bytes} {i : Issue}
    (h : i ∈ scanSource file src) :
    ∃ l param f, (parameterLists (tokenize src))[i.address.functionIndex]? = some l ∧
      l.params[i.address.paramIndex]? = some param ∧
      Candidate.inspect (tokenize src) param = some f ∧ i.typeStart = f.type.start ∧
      ∃ before after front first type between var, i.Describes src
        (Signature.splitLeading (tokenize src) param).body before after front first type between
        var := by
  obtain ⟨c, hc, rfl⟩ := List.mem_map.1 h
  obtain ⟨l, param, hl, hparam, hinspect⟩ := mem_candidates.1 hc
  obtain ⟨hregions, _, _, hlocated, hname, hfixable⟩ := Candidate.inspect_eq_some.1 hinspect
  obtain ⟨front, first, behind, hat, htype⟩ := Candidate.exists_typeAt hlocated
  rw [htype, Candidate.typeText_of_typeAt hat] at hname
  simp only [Candidate.isFixable, Bool.not_eq_true', Bool.or_eq_false_iff, List.isEmpty_eq_false_iff,
    beq_eq_false_iff_ne] at hfixable
  obtain ⟨⟨⟨⟨⟨hne, hmark⟩, _⟩, _⟩, _⟩, _⟩ := hfixable
  have hrun : Candidate.typeRun (first :: behind) ≠ [] := by
    intro hnil
    rw [hname, hnil] at hne
    exact hne rfl
  obtain ⟨type, between, var, hcons, hcut⟩ := hat.exists_cut hrun
  obtain ⟨hfirst, after, hsource⟩ := hcut.exists_source
  have hline := Issue.lineAt_eq (List.getElem?_eq_some_iff.1 hfirst).1
  rw [source_tokenize] at hsource hline
  rw [hcons] at hname
  have hstart : c.finding.type.start = front.length := by rw [htype]
  have hparameter : (Issue.ofCandidate file (tokenize src) c).parameter = var.text := by
    simp [Issue.ofCandidate, Candidate.body, hcut.find?_variable]
  rw [← hstart] at hfirst hsource hline
  rw [hregions] at hcut hfirst hsource
  exact ⟨l, param, c.finding, hl, hparam, hinspect, rfl, _, after, front, first, type, between, var,
    hcut, hstart, hfirst, rfl, hsource, hparameter, hregions ▸ hline, hname, hne, hmark⟩

/-- The issues of a source are those of the parameters that pass their inspection, one for each, in
the order of their addresses, and each describes its parameter. -/
theorem scanSource_exact (file : Path) (src : Bytes) :
    (scanSource file src).Pairwise (fun i j => i.address.compare j.address = .lt) ∧
      (∀ a : Address,
        (∃ i ∈ scanSource file src, i.address = a) ↔ Accepted (tokenize src) a) ∧
      ∀ i ∈ scanSource file src, i.file = file ∧
        ∃ l param f, (parameterLists (tokenize src))[i.address.functionIndex]? = some l ∧
          l.params[i.address.paramIndex]? = some param ∧
          Candidate.inspect (tokenize src) param = some f ∧ i.typeStart = f.type.start ∧
          ∃ before after front first type between var, i.Describes src
            (Signature.splitLeading (tokenize src) param).body before after front first type between
            var := by
  refine ⟨List.pairwise_map.2 (pairwise_candidates _), fun a => ?_, fun i hi => ⟨?_, ?_⟩⟩
  · rw [← exists_candidate_iff]
    simp [scanSource, Issue.ofCandidate]
  · obtain ⟨c, _, rfl⟩ := List.mem_map.1 hi
    rfl
  · exact exists_describes_of_mem hi

/-- The tokens of `<?php function f($n, Foo $a = null);` with a line end behind the tag. -/
def linedSample : List Token :=
  [⟨.openTag, utf8 "<?php"⟩, ⟨.whitespace, utf8 "\n"⟩, ⟨.keyword, utf8 "function"⟩,
    ⟨.whitespace, utf8 " "⟩, ⟨.name, utf8 "f"⟩, ⟨.punct, utf8 "("⟩, ⟨.variableName, utf8 "$n"⟩,
    ⟨.punct, utf8 ","⟩, ⟨.whitespace, utf8 " "⟩, ⟨.name, utf8 "Foo"⟩, ⟨.whitespace, utf8 " "⟩,
    ⟨.variableName, utf8 "$a"⟩, ⟨.whitespace, utf8 " "⟩, ⟨.punct, utf8 "="⟩,
    ⟨.whitespace, utf8 " "⟩, ⟨.name, utf8 "null"⟩, ⟨.punct, utf8 ")"⟩, ⟨.punct, utf8 ";"⟩]

theorem scanSource_exact_linedSample :
    ∃ i ∈ scanSource ⟨utf8 "a.php"⟩ (Token.source linedSample), i.address = ⟨0, 1⟩ ∧
      i.typeStart = 0 ∧ i.line = 2 := by
  have hreads : Lexer.Reads ⟨false, false⟩ linedSample := by decide
  have htokens : tokenize (Token.source linedSample) = linedSample := hreads
  have hlists : parameterLists linedSample = [⟨0, 5, 16, [⟨6, 7⟩, ⟨8, 16⟩]⟩] := by decide
  obtain ⟨-, haccepted, hdescribes⟩ := scanSource_exact ⟨utf8 "a.php"⟩ (Token.source linedSample)
  rw [htokens] at haccepted hdescribes
  obtain ⟨i, hi, haddress⟩ := (haccepted ⟨0, 1⟩).2
    ⟨⟨0, 5, 16, [⟨6, 7⟩, ⟨8, 16⟩]⟩, ⟨8, 16⟩, by rw [hlists]; rfl, rfl, by decide⟩
  obtain ⟨-, l, param, f, hl, hparam, hinspect, hstart, before, after, front, first, type, between,
    var, h⟩ := hdescribes i hi
  rw [haddress, hlists] at hl
  obtain rfl := Option.some.inj hl
  rw [haddress] at hparam
  obtain rfl := Option.some.inj hparam
  have hfinding : Candidate.inspect linedSample ⟨8, 16⟩ =
      some ⟨⟨⟨8, 9⟩, ⟨9, 16⟩, false⟩, ⟨0, 2⟩, utf8 "Foo"⟩ := by decide
  have hzero : i.typeStart = 0 := by
    rw [hstart, ← Option.some.inj (hfinding.symm.trans hinspect)]
  refine ⟨i, hi, haddress, hzero, ?_⟩
  rw [h.line_eq (by decide), h.before_eq, htokens, hzero]
  decide

end ExplicitNull
