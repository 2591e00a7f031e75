import MatchAction.Tree.Names

namespace MatchAction.Names

theorem numbered_inj {base : String} {n k : Nat} : numbered base n = numbered base k ↔ n = k := by
  constructor
  · intro h
    have hd := (String.append_right_inj _).1 h
    rw [Nat.toString_eq_ofList_toDigits, Nat.toString_eq_ofList_toDigits] at hd
    have hl := congrArg String.toList hd
    rw [String.toList_ofList, String.toList_ofList] at hl
    rw [← @Nat.ofDigitChars_ten_toDigits n, hl, Nat.ofDigitChars_ten_toDigits]
  · rintro rfl
    rfl

theorem exists_free (ns : Names) (base : String) :
    ∃ n ∈ List.range (ns.used.length + 1), ns.isUsed (numbered base n) = false := by
  refine Classical.byContradiction fun hno => ?_
  have hall : (List.range (ns.used.length + 1)).map (numbered base) ⊆ ns.used := by
    intro name hname
    obtain ⟨n, hn, rfl⟩ := List.mem_map.1 hname
    refine Classical.byContradiction fun hfree => hno ⟨n, hn, ?_⟩
    simpa [isUsed] using hfree
  have hnodup : ((List.range (ns.used.length + 1)).map (numbered base)).Nodup := by
    exact List.Pairwise.map _ (fun n k hne he => hne (numbered_inj.1 he)) List.nodup_range
  have hlen := hnodup.length_le_of_subset hall
  rw [List.length_map, List.length_range] at hlen
  omega

theorem pick_of_isUsed {ns : Names} {base : String} (h : ns.isUsed base) :
    ∃ k, ns.pick base = numbered base k ∧ ns.isUsed (numbered base k) = false ∧
      ∀ j < k, ns.isUsed (numbered base j) := by
  obtain ⟨n, hn, hfree⟩ := ns.exists_free base
  have hsome : ((List.range (ns.used.length + 1)).find? fun n =>
      !ns.isUsed (numbered base n)).isSome := by
    rw [List.find?_isSome]
    exact ⟨n, hn, by simp [hfree]⟩
  obtain ⟨k, hk⟩ := Option.isSome_iff_exists.1 hsome
  refine ⟨k, by simp only [pick, h, if_true, hk, Option.getD_some], ?_, fun j hj => ?_⟩
  · simpa using List.find?_some hk
  · obtain ⟨-, i, hi, hget, hbefore⟩ := List.find?_eq_some_iff_getElem.1 hk
    rw [List.getElem_range] at hget
    subst hget
    simpa using hbefore j hj

theorem pick_not_mem (ns : Names) (base : String) : ns.pick base ∉ ns.used := by
  by_cases h : ns.isUsed base
  · obtain ⟨k, hk, hfree, -⟩ := pick_of_isUsed h
    rw [hk]
    simpa [isUsed] using hfree
  · rw [pick, if_neg h]
    simpa [isUsed] using h

end MatchAction.Names
