namespace RuleRegistry.Text

def segmentsOf : List Char → List (List Char)
  | [] => [[]]
  | c :: rest =>
    if c = '.' then [] :: segmentsOf rest
    else match segmentsOf rest with
      | [] => [[c]]
      | first :: others => (c :: first) :: others

def joinSegments : List (List Char) → List Char
  | [] => []
  | [s] => s
  | s :: others => s ++ '.' :: joinSegments others

def segments (path : String) : List String := (segmentsOf path.toList).map String.ofList

def dotted (parts : List String) : String :=
  String.ofList (joinSegments (parts.map String.toList))

theorem segmentsOf_ne_nil (cs : List Char) : segmentsOf cs ≠ [] := by
  cases cs with
  | nil => simp [segmentsOf]
  | cons c rest =>
    simp only [segmentsOf]
    split
    · simp
    · split <;> simp

theorem joinSegments_segmentsOf (cs : List Char) : joinSegments (segmentsOf cs) = cs := by
  induction cs with
  | nil => rfl
  | cons c rest ih =>
    have ne := segmentsOf_ne_nil rest
    simp only [segmentsOf]
    cases hs : segmentsOf rest with
    | nil => exact absurd hs ne
    | cons first others =>
      rw [hs] at ih
      by_cases hc : c = '.'
      · simp [hc, joinSegments, ih]
      · cases others with
        | nil => simp_all [joinSegments]
        | cons second more => simp_all [joinSegments]

theorem segments_ne_nil (path : String) : segments path ≠ [] := by
  simp [segments, segmentsOf_ne_nil]

end RuleRegistry.Text
