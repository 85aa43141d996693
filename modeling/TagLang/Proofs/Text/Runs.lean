/-!
# Runs of characters

Texts are cut where a run of characters of one kind ends. The run and what follows it are told
apart by the first character that is not of the kind (`takeWhile_append_of_stop`,
`append_inj_of_stop`), and text behind such a character changes nothing in front of it
(`takeWhile_append_cons`, `dropWhile_append_of_cons`).
-/

namespace TagLang

variable {p : Char → Bool} {run rest text : List Char} {c : Char}

/-- A run of characters of a kind in front of one that is not of it. -/
theorem takeWhile_append_of_stop (hrun : ∀ c ∈ run, p c = true)
    (hrest : ∀ c ∈ rest.head?, p c = false) :
    (run ++ rest).takeWhile p = run ∧ (run ++ rest).dropWhile p = rest := by
  rw [List.takeWhile_append_of_pos hrun, List.dropWhile_append_of_pos hrun]
  cases rest with
  | nil => exact ⟨List.append_nil _, rfl⟩
  | cons c rest =>
    have hc : ¬ p c = true := by rw [hrest c rfl]; exact Bool.false_ne_true
    rw [List.takeWhile_cons_of_neg hc, List.dropWhile_cons_of_neg hc, List.append_nil]
    exact ⟨rfl, rfl⟩

/-- Characters of one kind can be told from what follows them. -/
theorem append_inj_of_stop {other more : List Char} (hrun : ∀ c ∈ run, p c = true)
    (hother : ∀ c ∈ other, p c = true) (hrest : ∀ c ∈ rest.head?, p c = false)
    (hmore : ∀ c ∈ more.head?, p c = false) (h : run ++ rest = other ++ more) :
    run = other ∧ rest = more := by
  obtain ⟨htake, hdrop⟩ := takeWhile_append_of_stop hrun hrest
  obtain ⟨htake', hdrop'⟩ := takeWhile_append_of_stop hother hmore
  rw [h] at htake hdrop
  exact ⟨htake.symm.trans htake', hdrop.symm.trans hdrop'⟩

/-- A run ends at a character that is not of its kind, if not before. -/
theorem takeWhile_append_cons (hc : p c = false) (text more : List Char) :
    (text ++ c :: more).takeWhile p = text.takeWhile p ∧
      (text ++ c :: more).dropWhile p = text.dropWhile p ++ c :: more := by
  induction text with
  | nil => simp [hc]
  | cons d text ih =>
    by_cases hd : p d = true
    · simp [hd, ih]
    · simp [hd]

/-- A run that ends inside a text ends there whatever follows the text. -/
theorem dropWhile_append_of_cons (h : text.dropWhile p = c :: rest) (more : List Char) :
    (text ++ more).takeWhile p = text.takeWhile p ∧
      (text ++ more).dropWhile p = c :: (rest ++ more) := by
  induction text with
  | nil => cases h
  | cons d text ih =>
    by_cases hd : p d = true
    · rw [List.dropWhile_cons_of_pos hd] at h
      simp [hd, ih h]
    · rw [List.dropWhile_cons_of_neg hd] at h
      obtain ⟨rfl, rfl⟩ := List.cons.inj h
      simp [hd]

end TagLang
