import RuleRegistry.Proofs.DottedPaths
import RuleRegistry.Proofs.Scoping
import RuleRegistry.Proofs.Writing

namespace RuleRegistry

namespace Text

theorem dotted_segments (path : String) : dotted (segments path) = path := by
  have same : (segments path).map String.toList = segmentsOf path.toList := by simp [segments]
  rw [dotted, same, joinSegments_segmentsOf, String.ofList_toList]

end Text

/-- A path of words that as a whole is no word with a meaning of its own. -/
structure IsName (path : String) : Prop where
  words : ∀ s ∈ Text.segments path, Expr.IsWord s.toList
  free : path ∉ ["true", "false", "null", "and", "or", "not", "in"]

namespace Expr

open RuleRegistry.Expr.Parser

theorem parse_dotted {root : String} {keys : List String} (word : IsWord root.toList)
    (words : ∀ k ∈ keys, IsWord k.toList) (free : root ≠ "not")
    (single : keys = [] → literalWord? root = none ∧ root ∉ reserved) :
    parse (Text.dotted (root :: keys)) = .ok (.name root keys) := by
  have read := parse_of_writes (.name 0 word free single words) .nil .nil
  rwa [List.append_nil, List.nil_append, String.ofList_toList] at read

/-- The prefix operator is the word in front of the first dot, and no operand begins with a dot. -/
theorem Parser.unary_not_dotted (rest : List Char) (fuel : Nat) :
    Parser.unary (fuel + 4) ('n' :: 'o' :: 't' :: '.' :: rest) = .error ⟨true, 1, '.' :: rest⟩ := by
  have word : keyword? "not".toList (skipBlanks ('n' :: 'o' :: 't' :: '.' :: rest)) =
      some ('.' :: rest) :=
    keyword?_append (show IsWord "not".toList by decide) "not".toList fun c cs next => by
      cases next
      decide
  have operand : Parser.unary (fuel + 3) ('.' :: rest) = .error ⟨false, 1, '.' :: rest⟩ := rfl
  rw [Parser.unary]
  simp only [word, operand]
  rfl

theorem parse_not_dotted {path : String} {rest : List Char}
    (spelled : path.toList = 'n' :: 'o' :: 't' :: '.' :: rest) :
    parse path = .error (.malformed path 3 "expected expression") := by
  have failed : run path.toList = .error ⟨true, 1, '.' :: rest⟩ := by
    obtain ⟨fuel, enough⟩ : ∃ fuel, stepsPerChar * (path.toList.length + 1) =
        fuel + 4 + levels + 1 := by
      refine ⟨stepsPerChar * (path.toList.length + 1) - 11, ?_⟩
      simp only [stepsPerChar, levels]
      omega
    rw [run, enough, spelled]
    exact level_error (unary_not_dotted rest fuel) levels (Nat.zero_add _)
  have offset : utf8Length path.toList - utf8Length ('.' :: rest) = 3 := by
    have size : 'n'.utf8Size = 1 ∧ 'o'.utf8Size = 1 ∧ 't'.utf8Size = 1 := by decide
    rw [spelled]
    simp only [utf8Length, size]
    omega
  simp only [parse, failed, offset]
  rfl

/-- A name is read as its root and keys, unless the root is the word of the prefix operator. -/
theorem parse_of_isName {path : String} (name : IsName path) {root : String} {keys : List String}
    (parts : Text.segments path = root :: keys) :
    parse path = if root = "not" then .error (.malformed path 3 "expected expression")
      else .ok (.name root keys) := by
  have whole : path = Text.dotted (root :: keys) := by rw [← parts, Text.dotted_segments]
  have bare : keys = [] → path = root := by
    rintro rfl
    rw [whole]
    exact String.ofList_toList
  split
  · rename_i same
    cases keys with
    | nil =>
      refine absurd name.free ?_
      rw [bare rfl, same]
      decide
    | cons key others =>
      have spelled : path.toList = 'n' :: 'o' :: 't' :: '.' ::
          Text.joinSegments ((key :: others).map String.toList) := by
        rw [whole, same]
        exact String.toList_ofList
      exact parse_not_dotted spelled
  · rename_i other
    obtain ⟨word, words⟩ := List.forall_mem_cons.mp (parts ▸ name.words)
    have free := name.free
    rw [whole]
    refine parse_dotted word words other fun none => ?_
    rw [bare none] at free
    simp only [List.mem_cons, List.not_mem_nil, or_false, not_or] at free
    simp [literalWord?, reserved, free]

end Expr

namespace Language

open Expr

/-- A name that is bound to a value is allowed, and evaluates to the value. -/
theorem evaluate_name (l : Language) {source root : String} {keys : List String}
    (read : Expr.parse source = .ok (.name root keys)) {ctx : Context} {v : Value}
    (bound : ctx.lookup (root :: keys) = some v) : (l.evaluate [] source ctx).1 = .ok v := by
  have known : root ∈ ctx.names := by
    by_contra missing
    rw [Context.lookup, (Entries.find?_eq_none_iff _ _).mpr missing] at bound
    cases bound
  have accepted : l.check ctx.names (.name root keys) = .ok () := by
    rw [check_ok_iff]
    intro r mem
    obtain rfl := List.mem_singleton.mp mem
    exact refusal?_none_iff.mpr known
  rw [evaluate_fst, parse_empty, parseFresh_ok_iff.mpr ⟨_, read, accepted, rfl⟩]
  simp only [Except.bind, eval, bound]

/-- A value that is set under a path of words is what the path evaluates to, whatever words these are.
Only a path that begins with the prefix operator cannot be read, for operators are read before names. -/
theorem evaluate_set (l : Language) (c : Context) (v : Value) {path : String} (name : IsName path) :
    (l.evaluate [] path (c.set path v)).1 =
      if (Text.segments path).head? = some "not" then .error (.malformed path 3 "expected expression")
      else .ok v := by
  have bound := Context.get?_set_self v c path
  obtain ⟨root, keys, parts⟩ := List.exists_cons_of_ne_nil (Text.segments_ne_nil path)
  have read := parse_of_isName name parts
  rw [Context.get?, parts] at bound
  by_cases same : root = "not"
  · rw [if_pos same] at read
    rw [if_pos (by rw [parts, same]; rfl), evaluate_fst, parse_empty, parseFresh, read]
    rfl
  · rw [if_neg same] at read
    rw [if_neg (by rw [parts]; simpa using same)]
    exact evaluate_name l read bound

theorem evaluate_set_operators :
    (evaluate {} [] "and.x" (Context.set {} "and.x" (.int 1))).1 = .ok (.int 1) ∧
      (evaluate {} [] "not.x" (Context.set {} "not.x" (.int 1))).1 =
        .error (.malformed "not.x" 3 "expected expression") :=
  ⟨evaluate_set {} {} (.int 1) ⟨by decide, by decide⟩,
    evaluate_set {} {} (.int 1) ⟨by decide, by decide⟩⟩

/-- What is set under a path of words cannot always be read by the path. -/
theorem not_evaluates_what_is_set : ¬ ∀ (c : Context) (v : Value) (path : String), IsName path →
    (evaluate {} [] path (c.set path v)).1 = .ok v := by
  intro h
  have spelled : "not.x".toList = 'n' :: 'o' :: 't' :: '.' :: ['x'] := rfl
  have failed := parse_not_dotted spelled
  have read := h {} (.int 1) "not.x" ⟨by decide, by decide⟩
  rw [evaluate_fst, parse_empty, parseFresh, failed] at read
  cases read

end Language

end RuleRegistry
