import RuleRegistry.Expr.Language
import RuleRegistry.Proofs.DecimalText
import RuleRegistry.Proofs.Writing

namespace RuleRegistry.Expr

open Outcome RuleRegistry.Expr.Parser

mutual

/-- The text of a tree in a language whose functions are called as `name(args)`. -/
def spell : Expr → List Char
  | literal v => v.text.toList
  | array items => '[' :: spellAll items ++ [']']
  | name root keys => (Text.dotted (root :: keys)).toList
  | unary op operand => op.symbol.toList ++ spell operand
  | binary op left right =>
    '(' :: spell left ++ ' ' :: op.symbol.toList ++ ' ' :: spell right ++ [')']
  | call function args => function.toList ++ '(' :: spellAll args ++ [')']

def spellAll : List Expr → List Char
  | [] => []
  | e :: rest => spell e ++ spellMore rest

def spellMore : List Expr → List Char
  | [] => []
  | e :: rest => ',' :: ' ' :: spell e ++ spellMore rest

end

mutual

def literals : Expr → List Value
  | literal v => [v]
  | array items => literalsAll items
  | name _ _ => []
  | unary _ operand => literals operand
  | binary _ left right => literals left ++ literals right
  | call _ args => literalsAll args

def literalsAll : List Expr → List Value
  | [] => []
  | e :: rest => literals e ++ literalsAll rest

end

theorem mem_literalsAll {items : List Expr} {e : Expr} {v : Value} (listed : e ∈ items)
    (inside : v ∈ e.literals) : v ∈ literalsAll items := by
  induction items with
  | nil => cases listed
  | cons first rest ih =>
    rw [literalsAll, List.mem_append]
    rcases List.mem_cons.mp listed with rfl | later
    · exact .inl inside
    · exact .inr (ih later)

theorem writesText_escape (s : List Char) : WritesText '"' s (Text.escape s) := by
  induction s with
  | nil => exact .nil
  | cons c rest ih =>
    rw [Text.escape_cons, Text.escapeChar]
    by_cases quote : c = '"'
    · subst quote
      exact .escaped (by decide) ih
    · by_cases slash : c = '\\'
      · subst slash
        exact .escaped (by decide) ih
      · by_cases line : c = '\n'
        · subst line
          exact .escaped (by decide) ih
        · by_cases tab : c = '\t'
          · subst tab
            exact .escaped (by decide) ih
          · rw [if_neg quote, if_neg slash, if_neg line, if_neg tab]
            exact .plain quote slash ih

theorem writesOperator_symbol (op : BinaryOp) :
    WritesOperator op ([' '] ++ (op.symbol.toList ++ [' '])) := by
  have spaced : Spaced [' '] := ⟨by simp, .one⟩
  cases op with
  | or => exact .word (w := "or") (by decide) spaced spaced
  | and => exact .word (w := "and") (by decide) spaced spaced
  | within => exact .word (w := "in") (by decide) spaced spaced
  | notWithin => exact .notWithin spaced spaced spaced
  | compare c => exact .symbol (by cases c <;> decide) .one .one
  | _ => exact .symbol (by decide) .one .one

/-- The trees of a list are spelled in every place as one of their texts. -/
def Spelled (items : List Expr) : Prop := ∀ e ∈ items, ∀ n, Writes n e (spell e)

theorem writesMore_spellMore {items : List Expr} (each : Spelled items) :
    WritesMore items (spellMore items) := by
  induction items with
  | nil => exact .nil .nil
  | cons e rest ih =>
    obtain ⟨first, others⟩ := List.forall_mem_cons.mp each
    exact .cons .nil .one (first 0) (ih others)

theorem writesItems_spellAll {items : List Expr} (each : Spelled items) :
    WritesItems items (spellAll items) := by
  cases items with
  | nil => exact .nil .nil
  | cons e rest =>
    obtain ⟨first, others⟩ := List.forall_mem_cons.mp each
    exact .cons .nil (first 0) (writesMore_spellMore others)

/-- The spelling of a readable tree is one of its texts. -/
theorem writes_spell {e : Expr} (readable : Readable e)
    (finite : ∀ x, Value.float x ∈ e.literals → x.isFinite = true) (n : Nat) : Writes n e (spell e) := by
  induction readable generalizing n with
  | null => exact .null n
  | bool b =>
    cases b with
    | false => exact .false n
    | true => exact .true n
  | @int k unsigned =>
    have spelled : spell (.literal (.int k)) = Nat.toDigits 10 k.toInt.toNat := by
      rw [spell, Value.text, (Numeral.text_int64 unsigned).1]
    rw [spelled]
    exact writes_int n unsigned
  | @float x unsigned =>
    obtain ⟨whole, fraction, spelled⟩ := Binary64.spelled (finite _ (by simp [literals])) unsigned
    rw [spell, Value.text, spelled.text]
    exact .float n spelled.some_whole spelled.some_fraction spelled.whole_digits
      spelled.fraction_digits spelled.read
  | string s =>
    rw [spell, Value.text, Text.toList_quote, List.cons_append]
    have text := Writes.string n (.inl rfl) (writesText_escape s.toList)
    rwa [String.ofList_toList] at text
  | array _ ih =>
    have each : Spelled _ := fun item listed =>
      ih item listed fun x inside => finite x (mem_literalsAll listed inside)
    exact .array n (writesItems_spellAll each)
  | name word free single words => exact .name n word free single words
  | unary op _ ih =>
    have marked : WritesPrefix op op.symbol.toList := by
      cases op with
      | not => exact .word ⟨by simp, .one⟩
      | neg => exact .minus .nil
    exact .unary n marked (ih finite levels)
  | @binary op left right _ _ left_ih right_ih =>
    have left_text := left_ih (fun x inside => finite x (by simp [literals, inside])) (levelOf op)
    have right_text := right_ih (fun x inside => finite x (by simp [literals, inside])) (levelOf op + 1)
    have inside := Writes.binary (Nat.zero_le _) left_text (writesOperator_symbol op) right_text
    have spelled : spell (.binary op left right) = '(' :: ([] ++
        ((spell left ++ ([' '] ++ (op.symbol.toList ++ [' ']) ++ spell right)) ++ ([] ++ [')']))) := by
      simp [spell]
    rw [spelled]
    exact .paren n .nil inside .nil
  | @call function args word meant unreserved _ ih =>
    have each : Spelled args := fun item listed =>
      ih item listed fun x inside => finite x (mem_literalsAll listed inside)
    have spelled : spell (.call function args) =
        function.toList ++ ([] ++ '(' :: (spellAll args ++ [')'])) := by simp [spell]
    rw [spelled]
    exact .call n word meant unreserved .nil (writesItems_spellAll each)

theorem parse_spell {e : Expr} (readable : Readable e)
    (finite : ∀ x, Value.float x ∈ e.literals → x.isFinite = true) :
    parse (String.ofList (spell e)) = .ok e := by
  have read := (writes_spell readable finite 0).run .nil .nil
  rw [List.nil_append, List.append_nil] at read
  exact parse_of_run read .nil

/-- A call of the function is written as its name with the arguments in parentheses. -/
def IsPlain (functions : Entries Function) (function : String) : Prop :=
  ∃ f, Entries.find? functions function = some f ∧
    ∀ args, f.compile args = function ++ "(" ++ ", ".intercalate args ++ ")"

theorem isPlain_simple {functions : Entries Function} {function : String}
    {run : List Value → Except ExprError Value}
    (found : Entries.find? functions function = some (.simple function run)) :
    IsPlain functions function :=
  ⟨_, found, fun _ => rfl⟩

def Plain (functions : Entries Function) (references : List Reference) : Prop :=
  ∀ function, .function function ∈ references → IsPlain functions function

theorem plain_append {functions : Entries Function} {front back : List Reference} :
    Plain functions (front ++ back) ↔ Plain functions front ∧ Plain functions back := by
  simp only [Plain, List.mem_append]
  constructor
  · intro h
    exact ⟨fun f mem => h f (.inl mem), fun f mem => h f (.inr mem)⟩
  · rintro ⟨front_plain, back_plain⟩ f (mem | mem)
    · exact front_plain f mem
    · exact back_plain f mem

theorem spellMore_eq (e : Expr) (items : List Expr) :
    spell e ++ spellMore items = ", ".toList.intercalate ((e :: items).map spell) := by
  induction items generalizing e with
  | nil => simp [spellMore]
  | cons next rest ih =>
    rw [List.map_cons, List.map_cons, List.intercalate_cons_cons, ← List.map_cons, ← ih next]
    simp [spellMore]

theorem intercalate_spell (items : List Expr) :
    ", ".intercalate (items.map fun e => String.ofList (spell e)) = String.ofList (spellAll items) := by
  rw [← String.toList_inj, String.toList_intercalate, String.toList_ofList, List.map_map]
  have texts : items.map (String.toList ∘ fun e => String.ofList (spell e)) = items.map spell := by
    simp [Function.comp_def]
  rw [texts]
  cases items with
  | nil => rfl
  | cons e rest =>
    rw [String.toList_ofList, spellAll]
    exact (spellMore_eq e rest).symm

mutual

theorem compile_eq_spell {functions : Entries Function} : ∀ e : Expr, Plain functions e.references →
    e.compile functions = .ok (String.ofList (spell e))
  | literal v, _ => by rw [compile, spell, String.ofList_toList]
  | array items, plain => by
    rw [compile, compileAll_eq_spell items plain, Except.map, intercalate_spell]
    simp [spell, ← String.toList_inj]
  | name root keys, _ => by rw [compile, spell, String.ofList_toList]
  | unary op operand, plain => by
    rw [compile, compile_eq_spell operand plain, Except.map]
    simp [spell]
  | binary op left right, plain => by
    obtain ⟨left_plain, right_plain⟩ := plain_append.mp plain
    rw [compile, compile_eq_spell left left_plain, compile_eq_spell right right_plain]
    simp [Except.bind, Except.map, spell, ← String.toList_inj]
  | call function args, plain => by
    obtain ⟨f, found, written⟩ := plain function List.mem_cons_self
    have args_plain : Plain functions (referencesAll args) := fun g mem =>
      plain g (List.mem_cons_of_mem _ mem)
    rw [compile, found]
    simp [compileAll_eq_spell args args_plain, Except.map, written, intercalate_spell, spell,
      ← String.toList_inj]

theorem compileAll_eq_spell {functions : Entries Function} : ∀ items : List Expr,
    Plain functions (referencesAll items) →
      compileAll functions items = .ok (items.map fun e => String.ofList (spell e))
  | [], _ => rfl
  | e :: rest, plain => by
    obtain ⟨first, others⟩ := plain_append.mp plain
    rw [compileAll, compile_eq_spell e first, compileAll_eq_spell rest others]
    rfl

end

/-- Printing undoes reading: the printed text is read as the same tree. So it is printed as itself,
and it is accepted and evaluated like the text that was read first. -/
theorem parse_compile {l : Language} {source : String} {e : Expr} (parsed : parse source = .ok e)
    (finite : ∀ x, Value.float x ∈ e.literals → x.isFinite = true)
    (plain : Plain l.functions e.references) :
    ∃ text, e.compile l.functions = .ok text ∧ parse text = .ok e ∧
      (∀ names, (l.parse [] text names).1.map Parsed.expr =
        (l.parse [] source names).1.map Parsed.expr) ∧
      (∀ names out, (l.compile [] source names).1 = .ok out →
        out = text ∧ (l.compile [] out names).1 = .ok out) ∧
      ∀ ctx, (l.evaluate [] text ctx).1 = (l.evaluate [] source ctx).1 := by
  have printed := compile_eq_spell e plain
  have back := parse_spell (readable_of_parse parsed) finite
  have read (text : String) (h : parse text = .ok e) (names : List String) :
      (l.parse [] text names).1 = (l.check names e).map fun _ => ⟨text, names, e⟩ := by
    simp only [Language.parse, Language.parseFresh, Entries.find?, h, Except.bind]
    cases l.check names e <;> rfl
  refine ⟨_, printed, back, fun names => ?_, fun names out compiled => ?_, fun ctx => ?_⟩
  · rw [read _ back, read _ parsed]
    cases l.check names e <;> rfl
  · simp only [Language.compile, read _ parsed] at compiled
    cases checked : l.check names e with
    | error error =>
      rw [checked] at compiled
      cases compiled
    | ok _ =>
      have same : out = String.ofList (spell e) := by
        simpa [checked, Except.map, Except.bind, printed, eq_comm] using compiled
      rw [same]
      simp [Language.compile, read _ back, checked, Except.map, Except.bind, printed]
  · simp only [Language.evaluate, read _ back, read _ parsed]
    cases l.check ctx.names e <;> rfl

def firstLanguage : Language where
  functions := [("first", .simple "first" fun args => .ok (args.headD .null))]

/-- A text with needless parentheses and blanks, a fraction, quotes and a line break. -/
def wideSource : String := "((not   first( x.y,1.50 , [] ))) or \"a\\\"b\\n\" not in ['c', --2]"

theorem parse_compile_wide : ∃ e, parse wideSource = .ok e ∧
    ∃ text, e.compile firstLanguage.functions = .ok text ∧ parse text = .ok e ∧
      text = "(not first(x.y, 1.5, []) or (\"a\\\"b\\n\" not in [\"c\", --2]))" := by
  have printed : ((parse wideSource).toOption.bind fun e =>
      (e.compile firstLanguage.functions).toOption) =
        some "(not first(x.y, 1.5, []) or (\"a\\\"b\\n\" not in [\"c\", --2]))" := by
    decide +kernel
  have finite : ((parse wideSource).toOption.all fun e => e.literals.all fun v =>
      v.toBinary64?.all Binary64.isFinite) = true := by
    decide +kernel
  have calls : (parse wideSource).toOption.map references =
      some [.function "first", .variable "x"] := by
    decide +kernel
  cases parsed : parse wideSource with
  | error _ =>
    rw [parsed] at printed
    cases printed
  | ok e =>
    rw [parsed] at printed finite calls
    obtain ⟨text, compiled, back, _⟩ := parse_compile (l := firstLanguage) parsed
      (fun x mem => List.all_eq_true.mp finite _ mem) fun f mem => by
        have same : f = "first" := by
          rw [Option.some.inj calls] at mem
          simpa using mem
        rw [same]
        exact isPlain_simple rfl
    refine ⟨e, rfl, text, compiled, back, ?_⟩
    simpa [Except.toOption, compiled] using printed

end RuleRegistry.Expr
