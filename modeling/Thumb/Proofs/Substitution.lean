import Thumb.Proofs.WrittenOperand

namespace Thumb

theorem isDigit_or_minus (i : Int) : ∀ c ∈ i.repr.toList, c.isDigit = true ∨ c = '-' := by
  have hdigits (n : Nat) : ∀ c ∈ (Nat.repr n).toList, c.isDigit = true := by
    rw [Nat.repr, String.toList_ofList]
    exact Operand.isDigit_toDigits n
  intro c hc
  cases i with
  | ofNat n => exact .inl (hdigits n c hc)
  | negSucc n =>
    rw [Int.repr, String.toList_append] at hc
    rcases List.mem_append.mp hc with hc | hc
    · exact .inr (List.mem_singleton.mp hc)
    · exact .inl (hdigits (n + 1) c hc)

theorem toList_repr_ne_nil (i : Int) : i.repr.toList ≠ [] := by
  cases i with
  | ofNat n =>
    have htext : (Int.repr (.ofNat n)).toList = Nat.toDigits 10 n := String.toList_ofList
    rw [htext]
    exact Nat.toDigits_ne_nil
  | negSucc n =>
    rw [Int.repr, String.toList_append]
    exact nofun

namespace Constants

variable {constants : Constants}

def spelled (constants : Constants) (cs : List Char) : List Char :=
  (constants.substitute (String.ofList cs)).toList

theorem toList_substitute (op : String) :
    (constants.substitute op).toList = constants.spelled op.toList := by
  rw [spelled, String.ofList_toList]

theorem spelled_of_splitOn {cs first : List Char} {rest : List (List Char)}
    (h : cs.splitOn '#' = first :: rest) :
    constants.spelled cs = ['#'].intercalate (first :: rest.map constants.spell) := by
  rw [spelled, substitute, String.toList_ofList, h, String.toList_ofList]

theorem splitOn_hash (cs : List Char) : ('#' :: cs).splitOn '#' = [] :: cs.splitOn '#' :=
  List.splitOn_append_cons_self_of_not_mem List.not_mem_nil cs

theorem spelled_nil : constants.spelled [] = [] := by
  rw [spelled_of_splitOn (List.splitOn_nil '#')]
  rfl

theorem exists_segment (cs : List Char) :
    ∃ segment rest, cs = segment ++ rest ∧ '#' ∉ segment ∧ ∀ c ∈ rest.head?, c = '#' := by
  by_cases h : '#' ∈ cs
  · obtain ⟨segment, more, rfl, hnone⟩ := List.eq_append_cons_of_mem h
    exact ⟨segment, _, rfl, hnone, fun c hc => (Option.some.inj hc).symm⟩
  · exact ⟨cs, [], (List.append_nil cs).symm, h, nofun⟩

/-- A text before a mark stays, and a name at its start gives way to its value if there is another
mark before it. -/
theorem spelled_segment {segment rest : List Char} (hnone : '#' ∉ segment)
    (hrest : ∀ c ∈ rest.head?, c = '#') :
    constants.spelled (segment ++ rest) = segment ++ constants.spelled rest ∧
      constants.spelled ('#' :: (segment ++ rest)) =
        '#' :: (constants.spell segment ++ constants.spelled rest) := by
  cases rest with
  | nil =>
    have hsegment : segment.splitOn '#' = [segment] := List.splitOn_eq_singleton hnone
    rw [List.append_nil, spelled_of_splitOn hsegment,
      spelled_of_splitOn ((splitOn_hash segment).trans (congrArg _ hsegment)), spelled_nil]
    simp [List.intercalate_cons_cons]
  | cons c more =>
    cases hrest c rfl
    obtain ⟨piece, pieces, hmore⟩ := List.exists_cons_of_ne_nil (List.splitOn_ne_nil '#' more)
    have hsegment : (segment ++ '#' :: more).splitOn '#' = segment :: piece :: pieces := by
      rw [List.splitOn_append_cons_self_of_not_mem hnone, hmore]
    have hhash : ('#' :: more).splitOn '#' = [] :: piece :: pieces := by
      rw [splitOn_hash, hmore]
    rw [spelled_of_splitOn hsegment, spelled_of_splitOn hhash,
      spelled_of_splitOn ((splitOn_hash _).trans (congrArg _ hsegment))]
    simp [List.intercalate_cons_cons]

theorem spelled_append {word : List Char} (hnone : '#' ∉ word) (cs : List Char) :
    constants.spelled (word ++ cs) = word ++ constants.spelled cs := by
  obtain ⟨segment, rest, rfl, hsegment, hrest⟩ := exists_segment cs
  have hboth : '#' ∉ word ++ segment := by
    rw [List.mem_append, not_or]
    exact ⟨hnone, hsegment⟩
  rw [← List.append_assoc, (spelled_segment hboth hrest).1, (spelled_segment hsegment hrest).1,
    List.append_assoc]

/-- A text is cut within its first part if the second one does not go on with it. -/
theorem cut_append {p : Char → Bool} {rest : List Char} (hrest : ∀ c ∈ rest.head?, p c = false)
    (cs : List Char) :
    (cs ++ rest).takeWhile p = cs.takeWhile p ∧
      (cs ++ rest).dropWhile p = cs.dropWhile p ++ rest := by
  induction cs with
  | nil =>
    cases rest with
    | nil => exact ⟨rfl, rfl⟩
    | cons c rest =>
      have hc : ¬p c = true := by simp [hrest c rfl]
      exact ⟨List.takeWhile_cons_of_neg hc, List.dropWhile_cons_of_neg hc⟩
  | cons c cs ih =>
    rw [List.cons_append, List.takeWhile_cons, List.takeWhile_cons, List.dropWhile_cons,
      List.dropWhile_cons, ih.1, ih.2]
    split
    · exact ⟨rfl, rfl⟩
    · exact ⟨rfl, rfl⟩

theorem spelled_hash (cs : List Char) :
    constants.spelled ('#' :: cs) =
      '#' :: match constants.get? (String.ofList (cs.takeWhile isNameChar)) with
        | some i => i.repr.toList ++ constants.spelled (cs.dropWhile isNameChar)
        | none => constants.spelled cs := by
  obtain ⟨segment, rest, rfl, hsegment, hrest⟩ := exists_segment cs
  have hstop : ∀ c ∈ rest.head?, isNameChar c = false := by
    intro c hc
    rw [hrest c hc]
    decide
  obtain ⟨htake, hdrop⟩ := cut_append hstop segment
  have hnone : '#' ∉ segment.dropWhile isNameChar :=
    fun hmem => hsegment ((List.dropWhile_sublist _).subset hmem)
  rw [(spelled_segment hsegment hrest).2, spell, htake, hdrop, (spelled_segment hnone hrest).1,
    (spelled_segment hsegment hrest).1]
  cases constants.get? (String.ofList (segment.takeWhile isNameChar)) with
  | some i => rw [List.append_assoc]
  | none => rfl

theorem spelled_cons {c : Char} (hc : c ≠ '#') (cs : List Char) :
    constants.spelled (c :: cs) = c :: constants.spelled cs :=
  spelled_append (fun hmem => hc (List.mem_singleton.mp hmem).symm) cs

theorem spelled_cut (cs : List Char) :
    constants.spelled cs =
      cs.takeWhile isNameChar ++ constants.spelled (cs.dropWhile isNameChar) := by
  have hnone : '#' ∉ cs.takeWhile isNameChar :=
    fun hmem => absurd (List.mem_takeWhile_imp hmem) (by decide)
  rw [← spelled_append hnone, List.takeWhile_append_dropWhile]

/-- No character comes or goes but those of names and numbers. -/
theorem mem_spelled_iff {c : Char} (hc : isNameChar c = false) (hminus : c ≠ '-')
    (cs : List Char) : c ∈ constants.spelled cs ↔ c ∈ cs := by
  have hdigit : c.isDigit = false := by
    rw [isNameChar, Char.isAlphanum, Bool.or_eq_false_iff, Bool.or_eq_false_iff] at hc
    exact hc.1.2
  have hvalue (i : Int) : c ∉ i.repr.toList := by
    intro hmem
    rcases isDigit_or_minus i c hmem with h | h
    · rw [hdigit] at h
      cases h
    · exact hminus h
  have hname (cs : List Char) : c ∉ cs.takeWhile isNameChar := by
    intro hmem
    rw [List.mem_takeWhile_imp hmem] at hc
    cases hc
  induction cs with
  | nil => rw [spelled_nil]
  | cons d cs ih =>
    by_cases hd : d = '#'
    · rw [hd, spelled_hash, List.mem_cons, List.mem_cons]
      refine or_congr_right (Iff.trans ?_ ih)
      cases constants.get? (String.ofList (cs.takeWhile isNameChar)) with
      | none => rfl
      | some i =>
        rw [spelled_cut cs, List.mem_append, List.mem_append, or_iff_right (hvalue i),
          or_iff_right (hname cs)]
    · rw [spelled_cons hd, List.mem_cons, List.mem_cons]
      exact or_congr_right ih

end Constants

end Thumb
