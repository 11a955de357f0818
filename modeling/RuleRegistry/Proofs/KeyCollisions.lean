import RuleRegistry.Proofs.RequestKey

/-!
What a key of a request tells. Equal requests have one key, and one key may stand for different
requests: names are joined by commas and put behind two slashes, whether or not they hold commas or
slashes themselves. Plain names are told apart from each other and from the text.
-/

namespace RuleRegistry

/-- The key of a request tells the text and the parts of its names, unless one text runs on into the
names of the other. It is the same for one text and one set of names, and on plain names for these
only. -/
theorem requestKey_tells (source source' : String) (names names' : List String) :
    (requestKey source names = requestKey source' names' ↔
      source = source' ∧ nameParts names = nameParts names' ∨
        RunsOn source.toList (joinedNames names) source'.toList (joinedNames names') ∨
        RunsOn source'.toList (joinedNames names') source.toList (joinedNames names)) ∧
    (source = source' ∧ names.toFinset = names'.toFinset →
      requestKey source names = requestKey source' names') ∧
    ((∀ n ∈ names, PlainName n) → (∀ n ∈ names', PlainName n) →
      requestKey source names = requestKey source' names' →
        source = source' ∧ names.toFinset = names'.toFinset) := by
  refine ⟨requestKey_eq_iff_parts, ?_, ?_⟩
  · rintro ⟨rfl, same⟩
    exact requestKey_congr same
  · intro plain plain' same
    exact (requestKey_eq_iff_of_plain plain plain').mp same

instance (n : String) : Decidable (PlainName n) :=
  decidable_of_iff (n ≠ "" ∧ ',' ∉ n.toList ∧ ('/' :: n.toList).IsChain fun c d => c ≠ '/' ∨ d ≠ '/')
    ⟨fun h => ⟨h.1, h.2.1, h.2.2⟩, fun h => ⟨h.some_char, h.no_comma, h.single⟩⟩

theorem requestKey_tells_slashed :
    requestKey "a / b" ["b", "a b/c", "b"] = requestKey "a / b" ["a b/c", "b"] ∧
      requestKey "a / b" ["a b/c", "b"] ≠ requestKey "a" ["b", "a b/c", "b/"] := by
  constructor
  · exact (requestKey_tells _ _ _ _).2.1 ⟨rfl, by decide⟩
  · intro same
    have told := (requestKey_tells _ _ _ _).2.2 (by decide) (by decide) same
    exact absurd told.1 (by decide)

/-- A name with a comma stands for two, and a name with two slashes for a name behind another text.
Under the key of an earlier request a text is then read whose variables are not allowed. -/
theorem not_requestKey_injective :
    (¬ ∀ (source source' : String) (names names' : List String),
      requestKey source names = requestKey source' names' →
        source = source' ∧ names.toFinset = names'.toFinset) ∧
    requestKey "a" ["b//c"] = requestKey "a//b" ["c"] ∧
    (∃ parsed, (Language.parse {} (Language.parse {} [] "b" ["a", "b"]).2 "b" ["a,b"]).1 =
      .ok parsed) ∧
    (Language.parse {} [] "b" ["a,b"]).1 = .error (.unknownVariable "b") := by
  have comma : requestKey "b" ["a", "b"] = requestKey "b" ["a,b"] := by
    apply requestKey_eq_iff_parts.mpr
    left
    refine ⟨rfl, ?_⟩
    rw [nameParts, nameParts, sortedNames_eq_self (by decide), sortedNames_eq_self (by decide)]
    decide
  refine ⟨fun injective => ?_, ?_, ?_, by rfl⟩
  · have sets := (injective _ _ _ _ comma).2
    exact absurd sets (by decide)
  · apply requestKey_eq_iff_parts.mpr
    right
    left
    rw [joinedNames, joinedNames, sortedNames_eq_self (by decide), sortedNames_eq_self (by decide)]
    exact .slashes ['b'] ['c']
  · have stored : (Language.parse {} [] "b" ["a", "b"]).2 =
        [(requestKey "b" ["a", "b"], ⟨"b", ["a", "b"], .name "b" []⟩)] := by rfl
    refine ⟨⟨"b", ["a", "b"], .name "b" []⟩, ?_⟩
    rw [stored, comma]
    simp [Language.parse, Entries.find?]

end RuleRegistry
