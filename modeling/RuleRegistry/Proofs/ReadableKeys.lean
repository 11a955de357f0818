import RuleRegistry.Proofs.Mentions
import RuleRegistry.Proofs.RequestKey

/-!
Keys of requests for texts that can be read. Outside of its strings such a text has no two slashes in
a row and none at its end, so the slashes of a key show where the text in it ends, whatever the names
are.
-/

namespace RuleRegistry.Expr

namespace Parser

/-- What a scan knows of the text before it: whether it is in a string, and behind a backslash there,
behind a slash outside of strings, or past two of them. -/
inductive Mode where
  | plain
  | slash
  | text (quote : Char)
  | escaped (quote : Char)
  | torn
deriving DecidableEq

def Mode.next : Mode → Char → Mode
  | text quote, c => if c = quote then plain else if c = '\\' then escaped quote else text quote
  | escaped quote, _ => text quote
  | torn, _ => torn
  | slash, c => if c = '/' then torn else if isQuote c then text c else plain
  | plain, c => if c = '/' then slash else if isQuote c then text c else plain

def scan (m : Mode) (cs : List Char) : Mode := cs.foldl Mode.next m

theorem scan_append (m : Mode) (front back : List Char) :
    scan m (front ++ back) = scan (scan m front) back := List.foldl_append

theorem scan_torn (cs : List Char) : scan .torn cs = .torn := by
  induction cs with
  | nil => rfl
  | cons c rest ih => exact ih

def isSolid (c : Char) : Bool := c != '/' && !isQuote c

theorem scan_solid {c : Char} (solid : isSolid c = true) (rest : List Char) :
    scan .plain (c :: rest) = scan .plain rest := by
  simp only [isSolid, Bool.and_eq_true, bne_iff_ne, Bool.not_eq_true'] at solid
  simp [scan, Mode.next, solid]

theorem scan_run {front : List Char} (solid : front.all isSolid = true) (rest : List Char) :
    scan .plain (front ++ rest) = scan .plain rest := by
  induction front with
  | nil => rfl
  | cons c front ih =>
    rw [List.all_cons, Bool.and_eq_true] at solid
    rw [List.cons_append, scan_solid solid.1, ih solid.2]

/-- Behind a slash an expression is scanned as anywhere, since it does not begin with another. -/
theorem scan_slash {cs : List Char} (h : ¬ Stray cs) :
    scan .plain ('/' :: cs) = scan .plain cs := by
  cases cs with
  | nil => exact absurd .ended h
  | cons c rest =>
    have other : c ≠ '/' := fun same => h (same ▸ .slash rest)
    simp [scan, Mode.next, other]

theorem isSolid_of_isWordChar {c : Char} (word : isWordChar c = true) : isSolid c = true := by
  have slash : isWordChar '/' = false := by decide
  have double : isWordChar '"' = false := by decide
  have single : isWordChar '\'' = false := by decide
  simp only [isSolid, isQuote, Bool.and_eq_true, bne_iff_ne, Bool.not_eq_true', Bool.or_eq_false_iff,
    beq_eq_false_iff_ne]
  refine ⟨?_, ?_, ?_⟩ <;> rintro rfl <;> simp_all

theorem isSolid_of_isDigit {c : Char} (digit : Numeral.isDigit c = true) : isSolid c = true :=
  isSolid_of_isWordChar (by rw [isWordChar, digit, Bool.or_true])

theorem scan_dropWhile {p : Char → Bool} (solid : ∀ c, p c = true → isSolid c = true)
    (cs : List Char) : scan .plain (cs.dropWhile p) = scan .plain cs := by
  have front : (cs.takeWhile p).all isSolid = true :=
    List.all_eq_true.mpr fun c mem => solid c (List.all_eq_true.mp List.all_takeWhile c mem)
  calc scan .plain (cs.dropWhile p)
    _ = scan .plain (cs.takeWhile p ++ cs.dropWhile p) := (scan_run front _).symm
    _ = scan .plain cs := by rw [List.takeWhile_append_dropWhile]

theorem scan_word {cs root behind : List Char} (word : word? cs = some (root, behind)) :
    scan .plain cs = scan .plain behind := by
  cases cs with
  | nil => cases word
  | cons c rest =>
    simp only [word?] at word
    split at word
    · rename_i start
      cases word
      have solid := isSolid_of_isWordChar (c := c) (by rw [isWordChar, start, Bool.true_or])
      rw [scan_solid solid, scan_dropWhile fun _ => isSolid_of_isWordChar]
    · cases word

theorem isSolid_of_isMark {c : Char} (mark : isMark c = true) : isSolid c = true := by
  simp only [isMark, Bool.and_eq_true] at mark
  simp [isSolid, mark]

theorem skimsWords_scan : SkimsWords (scan .plain) where
  mark mark := scan_solid (isSolid_of_isMark mark) _
  slash := scan_slash
  word := scan_word

theorem skims_scan : Skims (scan .plain) := skimsWords_scan.skims

theorem scan_textUntil {quote : Char} {cs s rest : List Char}
    (read : textUntil quote cs = .ok (s, rest)) : scan (.text quote) cs = scan .plain rest := by
  fun_induction textUntil quote cs generalizing s with
  | case1 => cases read
  | case2 rest =>
    cases read
    simp [scan, Mode.next]
  | case3 => cases read
  | case4 e rest _ other =>
    rename_i ih
    obtain ⟨⟨s, mid⟩, behind, same⟩ := Outcome.map_ok_iff.mp read
    cases same
    rw [← ih behind]
    simp [scan, Mode.next, other]
  | case5 c rest other plain ih =>
    obtain ⟨⟨s, mid⟩, behind, same⟩ := Outcome.map_ok_iff.mp read
    cases same
    rw [← ih behind]
    simp [scan, Mode.next, other, plain]

theorem scan_string {quote : Char} (quotes : isQuote quote = true) {cs s rest : List Char}
    (read : textUntil quote cs = .ok (s, rest)) : scan .plain (quote :: cs) = scan .plain rest := by
  have other : quote ≠ '/' := by
    rintro rfl
    cases quotes
  rw [← scan_textUntil read]
  simp [scan, Mode.next, other, quotes]

theorem scan_number {cs rest : List Char} {v : Value} (read : ReadsNumber cs v rest) :
    scan .plain cs = scan .plain rest := by
  have digits (cs : List Char) : scan .plain (cs.dropWhile Numeral.isDigit) = scan .plain cs :=
    scan_dropWhile (fun _ => isSolid_of_isDigit) cs
  cases read with
  | whole _ _ _ => exact (digits cs).symm
  | decimal _ point _ _ => rw [digits, ← digits cs, point, scan_solid (by decide)]

mutual

/-- A scan is back outside of strings, behind no slash, where a tree ends. -/
theorem Derives.scan_eq : ∀ {cs : List Char} {e : Expr} {rest : List Char}, Derives cs e rest →
    scan .plain cs = scan .plain rest
  | cs, _, _, .blanks behind => (skims_scan.skipBlanks cs).symm.trans behind.scan_eq
  | _, _, _, .binary first found second =>
    first.scan_eq.trans ((skims_scan.operator found second.not_stray).trans second.scan_eq)
  | _, _, _, .not found operand => (skimsWords_scan.keyword found).trans operand.scan_eq
  | _, _, _, .bang operand => (scan_solid (by decide) _).trans operand.scan_eq
  | _, _, _, .minus operand => (scan_solid (by decide) _).trans operand.scan_eq
  | _, _, _, .paren inside closed =>
    (scan_solid (by decide) _).trans (inside.scan_eq.trans (skims_scan.close (.inl rfl) closed))
  | _, _, _, .array inside => (scan_solid (by decide) _).trans (inside.scan_eq (.inr rfl))
  | _, _, _, .string quoted text => by
    apply scan_string _ text
    rcases quoted with rfl | rfl <;> decide
  | _, _, _, .number read => scan_number read
  | _, _, _, .meant word single _ => skimsWords_scan.path word single
  | _, _, _, .name word _ dotted _ _ => skimsWords_scan.path word dotted
  | _, _, _, .call word single _ _ opened inside =>
    (skimsWords_scan.path word single).trans
      ((skims_scan.token opened (by decide)).trans (inside.scan_eq (.inl rfl)))

theorem DerivesItems.scan_eq : ∀ {close : Char} {cs : List Char} {items : List Expr}
    {rest : List Char}, DerivesItems close cs items rest → close = ')' ∨ close = ']' →
      scan .plain cs = scan .plain rest
  | _, _, _, _, .nil closed, closes => skims_scan.close closes closed
  | _, _, _, _, .cons first more closed, closes =>
    first.scan_eq.trans (more.scan_eq.trans (skims_scan.close closes closed))

theorem DerivesMore.scan_eq : ∀ {cs : List Char} {items : List Expr} {rest : List Char},
    DerivesMore cs items rest → scan .plain cs = scan .plain rest
  | _, _, _, .nil _ => rfl
  | _, _, _, .cons comma first more =>
    (skims_scan.token comma (by decide)).trans (first.scan_eq.trans more.scan_eq)

end

/-- Of two texts after which a scan is plain, none runs on into what stands behind slashes. -/
theorem not_runsOn_of_scan {front front' back back' : List Char}
    (plain : scan .plain front = .plain) (plain' : scan .plain front' = .plain) :
    ¬ RunsOn front back front' back' := by
  intro longer
  cases longer with
  | slash _ =>
    rw [scan_append, plain] at plain'
    cases plain'
  | slashes taken _ =>
    rw [scan_append, plain] at plain'
    have torn : scan .torn taken = .plain := plain'
    rw [scan_torn] at torn
    cases torn

end Parser

theorem scan_of_parse {source : String} {e : Expr} (h : parse source = .ok e) :
    Parser.scan .plain source.toList = .plain := by
  obtain ⟨rest, derived, ended⟩ := derives_of_parse h
  rw [derived.scan_eq, ← Parser.skims_scan.skipBlanks rest, ended]
  rfl

/-- Texts that can be read have different keys, whatever the names. -/
theorem source_eq_of_requestKey {source source' : String} {e e' : Expr} {names names' : List String}
    (read : parse source = .ok e) (read' : parse source' = .ok e')
    (same : requestKey source names = requestKey source' names') : source = source' := by
  have plain := scan_of_parse read
  have plain' := scan_of_parse read'
  rcases requestKey_eq_iff_parts.mp same with ⟨sources, _⟩ | longer | longer
  · exact sources
  · exact absurd longer (Parser.not_runsOn_of_scan plain plain')
  · exact absurd longer (Parser.not_runsOn_of_scan plain' plain)

end RuleRegistry.Expr
