import RuleRegistry.Proofs.Grammar
import RuleRegistry.Proofs.Numerals

namespace RuleRegistry.Expr

open RuleRegistry.Expr.Parser

def IsWord (w : List Char) : Prop :=
  ∃ c rest, w = c :: rest ∧ isWordStart c = true ∧ ∀ d ∈ rest, isWordChar d = true

instance : (w : List Char) → Decidable (IsWord w)
  | [] => .isFalse nofun
  | c :: rest => decidable_of_iff (isWordStart c = true ∧ rest.all isWordChar = true) <| by
    rw [List.all_eq_true]
    constructor
    · exact fun word => ⟨c, rest, rfl, word⟩
    · rintro ⟨_, _, same, word⟩
      cases same
      exact word

/-- A tree that some text can stand for. -/
inductive Readable : Expr → Prop
  | null : Readable (.literal .null)
  | bool (b : Bool) : Readable (.literal (.bool b))
  | int {n : Int64} (unsigned : 0 ≤ n.toInt) : Readable (.literal (.int n))
  | float {x : Binary64} (unsigned : x.isNegative = false) : Readable (.literal (.float x))
  | string (s : String) : Readable (.literal (.string s))
  | array {items : List Expr} (readable : ∀ e ∈ items, Readable e) : Readable (.array items)
  | name {root : String} {keys : List String} (word : IsWord root.toList) (free : root ≠ "not")
      (single : keys = [] → literalWord? root = none ∧ root ∉ reserved)
      (words : ∀ k ∈ keys, IsWord k.toList) : Readable (.name root keys)
  | unary (op : UnaryOp) {operand : Expr} (readable : Readable operand) : Readable (.unary op operand)
  | binary (op : BinaryOp) {left right : Expr} (left_readable : Readable left)
      (right_readable : Readable right) : Readable (.binary op left right)
  | call {function : String} {args : List Expr} (word : IsWord function.toList)
      (meant : literalWord? function = none) (unreserved : function ∉ reserved)
      (readable : ∀ e ∈ args, Readable e) : Readable (.call function args)

namespace Parser

theorem isWord_of_word? {cs w rest : List Char} (h : word? cs = some (w, rest)) : IsWord w := by
  cases cs with
  | nil => cases h
  | cons c cs =>
    simp only [word?] at h
    split at h
    · rename_i start
      cases h
      exact ⟨c, _, rfl, start, List.all_eq_true.mp List.all_takeWhile⟩
    · cases h

theorem isWord_of_keysAfter (fuel : Nat) (cs : List Char) : ∀ k ∈ (keysAfter fuel cs).1, IsWord k := by
  fun_induction keysAfter fuel cs with
  | case2 fuel cs key rest hw keys rest' hk ih =>
    rw [hk] at ih
    exact List.forall_mem_cons.mpr ⟨isWord_of_word? hw, ih⟩
  | _ => simp

theorem not_digit_of_wordStart {c : Char} (start : isWordStart c = true) :
    Numeral.isDigit c = false := by
  simp only [isWordStart, isAsciiLetter, Bool.or_eq_true, Bool.and_eq_true, decide_eq_true_eq,
    beq_iff_eq, Char.le_def, UInt32.le_iff_toNat_le] at start
  simp only [Numeral.isDigit, Bool.and_eq_false_iff, decide_eq_false_iff_not, Char.le_def,
    UInt32.le_iff_toNat_le]
  rcases start with (⟨low, _⟩ | ⟨low, _⟩) | rfl
  · exact .inr fun high => absurd (Nat.le_trans low high) (by decide)
  · exact .inr fun high => absurd (Nat.le_trans low high) (by decide)
  · decide

theorem ReadsNumber.readable {cs rest : List Char} {v : Value} (h : ReadsNumber cs v rest) :
    Readable (.literal v) := by
  have all : ∀ c ∈ cs.takeWhile Numeral.isDigit, Numeral.isDigit c = true :=
    List.all_eq_true.mp List.all_takeWhile
  cases h with
  | whole _ _ read => exact .int (Numeral.readInt64_nonneg all read)
  | decimal some_digit _ _ read =>
    obtain ⟨c, digits, eq⟩ := List.exists_cons_of_ne_nil some_digit
    rw [eq] at read all
    exact .float (Numeral.readBinary64_unsigned (all c List.mem_cons_self) read)

theorem literalWord?_readable {w : String} {v : Value} (h : literalWord? w = some v) :
    Readable (.literal v) := by
  unfold literalWord? at h
  split at h
  · cases h
    exact .bool true
  · split at h
    · cases h
      exact .bool false
    · split at h
      · cases h
        exact .null
      · cases h

theorem readable_name {cs root behind : List Char} {keys : List (List Char)} {rest : List Char}
    (word : word? cs = some (root, behind)) (free : keyword? "not".toList cs = none)
    (dotted : keysAfter behind.length behind = (keys, rest))
    (single : keys = [] → literalWord? (String.ofList root) = none ∧ String.ofList root ∉ reserved) :
    Readable (.name (String.ofList root) (keys.map String.ofList)) := by
  have words := isWord_of_keysAfter behind.length behind
  rw [dotted] at words
  constructor
  · rw [String.toList_ofList]
    exact isWord_of_word? word
  · intro eq
    have same : root = "not".toList := by rw [← eq, String.toList_ofList]
    rw [keyword?, word, same] at free
    cases free
  · intro none_behind
    exact single (List.map_eq_nil_iff.mp none_behind)
  · intro k listed
    obtain ⟨key, mem, rfl⟩ := List.mem_map.mp listed
    rw [String.toList_ofList]
    exact words key mem

mutual

theorem Derives.readable : ∀ {cs : List Char} {e : Expr} {rest : List Char}, Derives cs e rest →
    Readable e
  | _, _, _, .blanks behind => behind.readable
  | _, _, _, .binary first _ second => .binary _ first.readable second.readable
  | _, _, _, .not _ operand => .unary .not operand.readable
  | _, _, _, .bang operand => .unary .not operand.readable
  | _, _, _, .minus operand => .unary .neg operand.readable
  | _, _, _, .paren inside _ => inside.readable
  | _, _, _, .array inside => .array inside.readable
  | _, _, _, .string _ _ => .string _
  | _, _, _, .number read => read.readable
  | _, _, _, .meant _ _ meaning => literalWord?_readable meaning
  | _, _, _, .name word free dotted single _ => readable_name word free dotted single
  | _, _, _, .call word _ meaning unreserved _ inside => by
    refine .call ?_ meaning unreserved inside.readable
    rw [String.toList_ofList]
    exact isWord_of_word? word

theorem DerivesItems.readable : ∀ {close : Char} {cs : List Char} {items : List Expr}
    {rest : List Char}, DerivesItems close cs items rest → ∀ e ∈ items, Readable e
  | _, _, _, _, .nil _ => by simp
  | _, _, _, _, .cons first more _ => List.forall_mem_cons.mpr ⟨first.readable, more.readable⟩

theorem DerivesMore.readable : ∀ {cs : List Char} {items : List Expr} {rest : List Char},
    DerivesMore cs items rest → ∀ e ∈ items, Readable e
  | _, _, _, .nil _ => by simp
  | _, _, _, .cons _ first more => List.forall_mem_cons.mpr ⟨first.readable, more.readable⟩

end

end Parser

theorem readable_of_parse {source : String} {e : Expr} (h : parse source = .ok e) : Readable e := by
  obtain ⟨_, derived, _⟩ := derives_of_parse h
  exact derived.readable

end RuleRegistry.Expr
