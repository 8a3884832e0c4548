import ExplicitNull.CommandLine.Run

/-!
Questions among the arguments. Once a question for help or for the version has been read, what
stands behind it is not looked at: it can neither be out of place nor change the answer.
-/
namespace ExplicitNull.CommandLine

variable {args : List Bytes} {given : List Given}

theorem andRest_of_ends {first : List Given} {rest rest' : Option (List Given)}
    (h : andRest first rest = some given) (hends : given.all Given.goesOn = false)
    (hrest : ∀ later, rest = some later → later.all Given.goesOn = false → rest' = some later) :
    andRest first rest' = some given := by
  unfold andRest at h ⊢
  split at h
  · next hfirst =>
    obtain ⟨later, hlater, rfl⟩ := Option.map_eq_some_iff.1 h
    rw [List.all_append, hfirst, Bool.true_and] at hends
    rw [if_pos hfirst, hrest later hlater hends]
    rfl
  · next hfirst => rw [if_neg hfirst, h]

/-- Arguments that are read up to a question are read alike with others behind them. -/
theorem read?_append (h : read? args = some given) (hends : given.all Given.goesOn = false)
    (more : List Bytes) : read? (args ++ more) = some given := by
  fun_induction read? args generalizing given with
  | case1 | case2 => simp_all
  | case3 | case6 | case7 | case9 | case11 => cases h
  | case4 arg rest hne hlong name f hflag hsplit ih =>
    rw [List.cons_append, read?, if_neg hne, if_pos hlong]
    simp only [hsplit, hflag]
    exact andRest_of_ends h hends fun _ => ih
  | case5 arg rest hne hlong name k v hkey hflag hsplit ih =>
    rw [List.cons_append, read?, if_neg hne, if_pos hlong]
    simp only [hsplit, hflag, hkey]
    exact andRest_of_ends h hends fun _ => ih
  | case8 arg hne hlong name k hkey hflag v rest hvalue hsplit ih =>
    rw [List.cons_append, List.cons_append, read?, if_neg hne, if_pos hlong]
    simp only [hsplit, hflag, hkey, if_neg hvalue]
    exact andRest_of_ends h hends fun _ => ih
  | case10 arg rest hne hshort hletters ih =>
    rw [List.cons_append, read?, if_neg hne, if_neg hshort, if_pos hletters]
    obtain ⟨first, hfirst, hand⟩ := Option.bind_eq_some_iff.1 h
    exact Option.bind_eq_some_iff.2 ⟨first, hfirst, andRest_of_ends hand hends fun _ => ih⟩

/-- A question stays the same with other arguments behind those that ask it. -/
theorem request?_append {r : Request} (h : request? args = some r) (hr : ∀ o, r ≠ .options o)
    (more : List Bytes) : request? (args ++ more) = some r := by
  obtain ⟨given, hread, hrequest⟩ := Option.bind_eq_some_iff.1 h
  have hends : given.all Given.goesOn = false := by
    split at hrequest
    · split at hrequest
      · next hlast => exact List.all_eq_false.2 ⟨_, List.mem_of_getLast? hlast, by decide⟩
      · next hlast => exact List.all_eq_false.2 ⟨_, List.mem_of_getLast? hlast, by decide⟩
      · obtain ⟨o, -, ho⟩ := Option.map_eq_some_iff.1 hrequest
        exact absurd ho.symm (hr o)
    · cases hrequest
  exact Option.bind_eq_some_iff.2 ⟨given, read?_append hread hends more, hrequest⟩

theorem run_append {m : Type → Type} [Monad m] [FileSystem m] {r : Request}
    (h : request? args = some r) (hr : ∀ o, r ≠ .options o) (more : List Bytes) :
    (run (args ++ more) : m Output) = run args := by
  unfold run
  rw [request?_append h hr more, h]

example : request? (["-v", "--help", "--nonsense"].map utf8) = some .help := by decide

end ExplicitNull.CommandLine
