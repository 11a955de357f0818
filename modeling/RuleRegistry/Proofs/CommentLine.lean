import RuleRegistry.Yaml.Tree

/-!
Comment lines. What a text is read as depends on where its parts stand in their lines and on how far
they are apart, not on what stands before the text: behind a comment line it is read as by itself.
-/

namespace RuleRegistry.Yaml

variable {i l : Nat}

namespace Cursor

/-- The place with so many more bytes and lines before it. -/
abbrev later (i l : Nat) (c : Cursor) : Cursor := { c with index := c.index + i, line := c.line + l }

theorem rest_later (c : Cursor) : (c.later i l).rest = c.rest := rfl

theorem next_later (c : Cursor) : (c.later i l).next = c.next.later i l := by
  obtain ⟨rest, index, line, column⟩ := c
  unfold next
  dsimp only [later]
  split
  · rfl
  · simp only [Nat.add_right_comm]
  · split <;> simp only [Nat.add_right_comm]

theorem skip_later (n : Nat) (c : Cursor) : (c.later i l).skip n = (c.skip n).later i l := by
  induction n generalizing c with
  | zero => rfl
  | succ n ih => rw [skip, next_later, ih, skip]

theorem skipWhile_later (p : Char → Bool) (c : Cursor) :
    (c.later i l).skipWhile p = (c.skipWhile p).later i l :=
  skip_later _ c

theorem span_later (p : Char → Bool) (c : Cursor) :
    (c.later i l).span p = ((c.span p).1, (c.span p).2.later i l) :=
  congrArg (Prod.mk _) (skipWhile_later p c)

theorem skipLine_later (c : Cursor) : (c.later i l).skipLine = c.skipLine.later i l :=
  skipWhile_later _ c

theorem skipComment_later (c : Cursor) :
    (c.later i l).skipComment = c.skipComment.later i l := by
  simp only [skipComment, skipWhile_later, rest_later, skipLine_later]
  split <;> rfl

end Cursor

/-- What is read at the later place: the same, and the place behind it as much later. -/
def behind {α : Type} (i l : Nat) (p : α × Cursor) : α × Cursor := (p.1, p.2.later i l)

/-- As `behind`, for what is read in two parts. -/
def behindBoth {α β : Type} (i l : Nat) (p : α × β × Cursor) : α × β × Cursor :=
  (p.1, behind i l p.2)

/- Two readings that differ in their places only: they choose the same branch, go on from the same
result, and fail together. -/

theorem ite_apply {α β : Type} {f : α → β} {p q : Prop} [Decidable p] [Decidable q] {x y : α}
    {x' y' : β} (same : p ↔ q) (first : x' = f x) (second : y' = f y) :
    (if p then x' else y') = f (if q then x else y) := by
  by_cases h : q
  · rw [if_pos h, if_pos (same.mpr h), first]
  · rw [if_neg h, if_neg (mt same.mp h), second]

theorem map_bind {α α' β β' : Type} {m : α → α'} {f : β → β'} {next : α → Option β}
    {next' : α' → Option β'} {x : Option α} {x' : Option α'} (read : x' = x.map m)
    (each : ∀ a, next' (m a) = (next a).map f) : x'.bind next' = (x.bind next).map f := by
  subst read
  cases x with
  | none => rfl
  | some a => exact each a

theorem map_apply {α α' β β' : Type} {m : α → α'} {f : β → β'} {next : α → β} {next' : α' → β'}
    {x : Option α} {x' : Option α'} (read : x' = x.map m) (each : ∀ a, next' (m a) = f (next a)) :
    x'.map next' = (x.map next).map f := by
  subst read
  cases x with
  | none => rfl
  | some a => exact congrArg some (each a)

theorem map_behind {α : Type} (f : α → α) (read : Option (α × Cursor)) :
    (read.map (behind i l)).map (fun p => (f p.1, p.2)) =
      (read.map fun p => (f p.1, p.2)).map (behind i l) := by
  cases read <;> rfl

theorem map_behindBoth {α β : Type} (f : α → α) (read : Option (α × β × Cursor)) :
    (read.map (behindBoth i l)).map (fun p => (f p.1, p.2)) =
      (read.map fun p => (f p.1, p.2)).map (behindBoth i l) := by
  cases read <;> rfl

theorem Gap.read_later (tabsFrom fuel : Nat) (g : Gap) (c : Cursor) :
    Gap.read tabsFrom fuel g (c.later i l) = (Gap.read tabsFrom fuel g c).map (behind i l) := by
  induction fuel generalizing g c with
  | zero => rfl
  | succ fuel ih =>
    simp only [Gap.read, Cursor.next_later, ih]
    split
    · rfl
    · exact ite_apply .rfl (ite_apply .rfl rfl rfl) (ite_apply .rfl rfl rfl)

namespace Scalar

theorem quotedPart_later (single : Bool) (fuel : Nat) (c : Cursor) :
    quotedPart single fuel (c.later i l) = (quotedPart single fuel c).map (behindBoth i l) := by
  induction fuel generalizing c with
  | zero => rfl
  | succ fuel ih =>
    simp only [quotedPart, Cursor.next_later, Cursor.skip_later, ih, map_behindBoth]
    refine ite_apply .rfl rfl ?_
    split <;> try rfl
    refine ite_apply .rfl rfl ?_
    split <;> rfl

theorem quotedFrom_later (single : Bool) (fuel : Nat) (c : Cursor) :
    quotedFrom single fuel (c.later i l) = (quotedFrom single fuel c).map (behind i l) := by
  induction fuel generalizing c with
  | zero => rfl
  | succ fuel ih =>
    rw [quotedFrom, quotedFrom, quotedPart_later]
    refine ite_apply .rfl rfl ?_
    obtain _ | ⟨part, escapedBreak, c'⟩ := quotedPart single fuel c
    · rfl
    · refine ite_apply .rfl (congrArg (fun c => some (part, c)) (Cursor.next_later c')) ?_
      simp only [Gap.read_later]
      obtain _ | ⟨gap, c''⟩ := Gap.read 0 (fuel + 1) { broken := escapedBreak } c'
      · rfl
      · simp only [Option.map_some, behind, ih]
        exact map_behind _ _

theorem quoted_later (single : Bool) (c : Cursor) :
    quoted single (c.later i l) = (quoted single c).map (behind i l) := by
  rw [quoted, Cursor.next_later, quotedFrom_later, quoted]

theorem plainPart_later (flow : Bool) (fuel : Nat) (c : Cursor) :
    plainPart flow fuel (c.later i l) = (plainPart flow fuel c).map (behind i l) := by
  induction fuel generalizing c with
  | zero => rfl
  | succ fuel ih =>
    simp only [plainPart, Cursor.next_later, ih, map_behind]
    refine ite_apply .rfl rfl (ite_apply .rfl rfl (ite_apply .rfl rfl ?_))
    split <;> rfl

theorem plainFrom_later (flow : Bool) (indent fuel : Nat) (gap : Gap) (c : Cursor) :
    plainFrom flow indent fuel gap (c.later i l) =
      (plainFrom flow indent fuel gap c).map (behindBoth i l) := by
  induction fuel generalizing gap c with
  | zero => rfl
  | succ fuel ih =>
    rw [plainFrom, plainFrom, plainPart_later]
    refine ite_apply .rfl rfl ?_
    obtain _ | ⟨_ | ⟨ch, part⟩, c'⟩ := plainPart flow (fuel + 1) c
    · rfl
    · rfl
    · refine ite_apply .rfl rfl ?_
      simp only [Gap.read_later]
      obtain _ | ⟨next, c''⟩ := Gap.read indent (fuel + 1) {} c'
      · rfl
      · simp only [Option.map_some, behind, ih]
        exact ite_apply .rfl rfl (map_behindBoth _ _)

theorem plain_later (flow : Bool) (indent : Nat) (c : Cursor) :
    plain flow indent (c.later i l) = (plain flow indent c).map (behindBoth i l) :=
  plainFrom_later ..

theorem blockHeader_later (c : Cursor) :
    blockHeader (c.later i l) = (blockHeader c).map (behindBoth i l) := by
  simp only [blockHeader, Cursor.skip_later, Cursor.next_later]
  split
  · split
    · refine ite_apply .rfl rfl ?_
      split <;> rfl
    · rfl
    · refine ite_apply .rfl rfl ?_
      split
      · rfl
      · split <;> rfl
  · rfl

theorem blockBreaks_later (indent : Option Nat) (fuel widest : Nat) (c : Cursor) :
    blockBreaks indent fuel widest (c.later i l) =
      (blockBreaks indent fuel widest c).map (behindBoth i l) := by
  induction fuel generalizing widest c with
  | zero => rfl
  | succ fuel ih =>
    have room (c : Cursor) : indentRoom indent (c.later i l) = indentRoom indent c := rfl
    simp only [blockBreaks, Cursor.skip_later, Cursor.next_later, room, ih, map_behindBoth]
    refine ite_apply .rfl rfl ?_
    split
    · exact ite_apply .rfl rfl rfl
    · rfl

theorem blockLines_later (folded : Bool) (indent fuel : Nat) (leading breaks : List Char)
    (wasBlank : Bool) (c : Cursor) :
    blockLines folded indent fuel leading breaks wasBlank (c.later i l) =
      (blockLines folded indent fuel leading breaks wasBlank c).map
        fun p => (p.1, p.2.1, behind i l p.2.2) := by
  induction fuel generalizing leading breaks wasBlank c with
  | zero => rfl
  | succ fuel ih =>
    simp only [blockLines, Cursor.span_later, Cursor.next_later, blockBreaks_later]
    refine ite_apply .rfl rfl ?_
    obtain _ | ⟨more, widest, c'⟩ :=
      blockBreaks (some indent) (fuel + 1) 0 (c.span fun ch => !isBreak ch).2.next
    · rfl
    · simp only [Option.map_some, behindBoth, behind, ih, Option.map_map]
      rfl

theorem block_later (folded : Bool) (outer : Int) (c : Cursor) :
    block folded outer (c.later i l) = (block folded outer c).map (behind i l) := by
  simp only [block, Cursor.next_later]
  refine map_bind (blockHeader_later _) fun ⟨chomping, increment, c⟩ => ?_
  simp only [behindBoth, behind, Cursor.skipComment_later, Cursor.next_later]
  refine ite_apply .rfl rfl (map_bind (blockBreaks_later ..) fun ⟨breaks, widest, c⟩ => ?_)
  refine map_bind (blockLines_later ..) fun ⟨text, leading, breaks, c⟩ => ?_
  split <;> rfl

end Scalar

namespace Scanner

theorem versionNumber_later (c : Cursor) :
    versionNumber (c.later i l) = (versionNumber c).map (behind i l) := by
  simp only [versionNumber, Cursor.span_later]
  refine ite_apply .rfl ?_ rfl
  rw [Option.map_map]
  rfl

theorem followingBytes_later (n : Nat) (c : Cursor) :
    followingBytes n (c.later i l) = (followingBytes n c).map (behind i l) := by
  induction n generalizing c with
  | zero => rfl
  | succ n ih =>
    simp only [followingBytes, Cursor.skip_later, ih, map_behind]
    cases escapedByte c.rest with
    | none => rfl
    | some b => exact ite_apply .rfl rfl rfl

theorem escapedBytes_later (c : Cursor) :
    escapedBytes (c.later i l) = (escapedBytes c).map (behind i l) := by
  simp only [escapedBytes, Cursor.skip_later]
  refine map_bind (Option.map_id' ..).symm fun first => map_bind (Option.map_id' ..).symm fun n => ?_
  exact map_bind (followingBytes_later ..) fun _ => rfl

theorem uriFrom_later (verbatim : Bool) (fuel : Nat) (c : Cursor) :
    uriFrom verbatim fuel (c.later i l) = (uriFrom verbatim fuel c).map (behind i l) := by
  induction fuel generalizing c with
  | zero => rfl
  | succ fuel ih =>
    simp only [uriFrom, Cursor.next_later, ih, map_behind]
    split
    · refine map_bind (escapedBytes_later c) fun ⟨bytes, c⟩ => ?_
      simp only [behind, ih]
      exact map_behind _ _
    · exact ite_apply .rfl rfl rfl
    · rfl

theorem uri_later (verbatim : Bool) (c : Cursor) :
    uri verbatim (c.later i l) = (uri verbatim c).map (behind i l) :=
  uriFrom_later ..

theorem tagHandle_later (c : Cursor) :
    tagHandle (c.later i l) = (tagHandle c).map (behind i l) := by
  simp only [tagHandle, Cursor.next_later, Cursor.span_later]
  exact ite_apply .rfl (ite_apply .rfl rfl rfl) rfl

theorem tagDirective_later (c : Cursor) :
    tagDirective (c.later i l) = (tagDirective c).map (behind i l) := by
  simp only [tagDirective, Cursor.skipWhile_later]
  refine map_bind (tagHandle_later _) fun ⟨handle, c⟩ => ?_
  simp only [behind, Cursor.skipWhile_later]
  refine ite_apply .rfl rfl (ite_apply .rfl rfl ?_)
  exact map_bind (uri_later ..) fun _ => ite_apply .rfl rfl rfl

theorem versionDirective_later (c : Cursor) :
    versionDirective (c.later i l) = (versionDirective c).map (behind i l) := by
  simp only [versionDirective, Cursor.skipWhile_later]
  refine map_bind (versionNumber_later _) fun ⟨major, c⟩ => ?_
  simp only [behind, Cursor.next_later]
  exact ite_apply .rfl rfl (map_bind (versionNumber_later _) fun _ => rfl)

theorem directive_later (c : Cursor) :
    directive (c.later i l) = (directive c).map (behind i l) := by
  simp only [directive, Cursor.next_later, Cursor.span_later]
  refine ite_apply .rfl rfl (ite_apply .rfl (map_bind (versionDirective_later _) fun ⟨t, c⟩ => ?_)
    (ite_apply .rfl (map_bind (tagDirective_later _) fun ⟨t, c⟩ => ?_) rfl))
  -- the line has to end behind either directive
  all_goals
    simp only [behind, Cursor.skipComment_later, Cursor.next_later]
    refine ite_apply .rfl rfl ?_
    split <;> rfl

theorem anchorName_later (c : Cursor) :
    anchorName (c.later i l) = (anchorName c).map (behind i l) := by
  simp only [anchorName, Cursor.next_later, Cursor.span_later]
  exact ite_apply .rfl rfl rfl

theorem tag_later (c : Cursor) (inFlow : Bool) :
    tag (c.later i l) inFlow = (tag c inFlow).map (behind i l) := by
  simp only [tag, Cursor.skip_later]
  refine ite_apply .rfl (map_bind (uri_later ..) fun ⟨suffix, c⟩ => ?_)
    (map_bind (tagHandle_later c) fun ⟨handle, c⟩ => ?_)
  · simp only [behind, Cursor.next_later]
    exact ite_apply .rfl rfl (ite_apply .rfl rfl rfl)
  · refine ite_apply .rfl (map_bind (uri_later ..) fun _ => ?_) (map_bind (uri_later ..) fun _ => ?_)
    · exact ite_apply .rfl rfl (ite_apply .rfl rfl rfl)
    · refine map_bind (m := behindBoth i l) ?_ fun _ => ite_apply .rfl rfl rfl
      exact congrArg some (ite_apply .rfl rfl rfl)

end Scanner

/-- The pending key with so many more bytes and lines before it. -/
def PendingKey.later (i l : Nat) (k : PendingKey) : PendingKey :=
  { k with index := k.index + i, line := k.line + l }

namespace Scanner

/-- The scanner with so many more bytes and lines before its place. -/
abbrev later (i l : Nat) (s : Scanner) : Scanner :=
  { s with
    cursor := s.cursor.later i l
    pending := s.pending.map (Option.map (PendingKey.later i l)) }

variable (s : Scanner)

theorem openBlock_later (column : Nat) (position : Option Nat) (t : Token) :
    (s.later i l).openBlock column position t = (s.openBlock column position t).later i l := by
  unfold openBlock
  refine ite_apply .rfl rfl ?_
  cases position <;> rfl

theorem closeFrom_later (column : Int) (others : List Int) :
    closeFrom column others (s.later i l) = (closeFrom column others s).later i l := by
  induction others generalizing s with
  | nil => rfl
  | cons outer others ih =>
    exact ite_apply .rfl (ih ({ s with indent := outer, outerIndents := others }.emit .blockEnd)) rfl

theorem closeBlocks_later (column : Int) :
    (s.later i l).closeBlocks column = (s.closeBlocks column).later i l :=
  ite_apply .rfl rfl (closeFrom_later s column _)

theorem alive_later (k : PendingKey) (c : Cursor) :
    PendingKey.alive (k.later i l) (c.later i l) = PendingKey.alive k c := by
  simp only [PendingKey.alive, PendingKey.later, Nat.add_lt_add_iff_right, Nat.add_right_comm _ i]

theorem dropStale_later : (s.later i l).dropStale = s.dropStale.map (later i l) := by
  have stale (k : Option PendingKey) : ((k.map (PendingKey.later i l)).map fun k =>
      !PendingKey.alive k (s.cursor.later i l) && k.required) =
        k.map fun k => !PendingKey.alive k s.cursor && k.required := by
    cases k with
    | none => rfl
    | some k =>
      simp only [Option.map_some, alive_later]
      rfl
  have kept (k : Option PendingKey) : (k.map (PendingKey.later i l)).filter
      (fun k => !!PendingKey.alive k (s.cursor.later i l)) =
        (k.filter fun k => !!PendingKey.alive k s.cursor).map (PendingKey.later i l) := by
    cases k with
    | none => rfl
    | some k =>
      simp only [Option.map_some, Option.filter_some, alive_later]
      exact ite_apply .rfl rfl rfl
  unfold dropStale
  simp only [List.any_map, List.map_map, Function.comp_def, stale, kept]
  refine ite_apply .rfl rfl (congrArg some ?_)
  simp only [later, List.map_map, Function.comp_def]

theorem dropKey_later : (s.later i l).dropKey = s.dropKey.map (later i l) := by
  obtain ⟨cursor, tokens, indent, outerIndents, keyAllowed, pending, flow⟩ := s
  obtain _ | ⟨_ | k, others⟩ := pending
  · rfl
  · rfl
  · exact ite_apply .rfl rfl rfl

theorem saveKey_later : (s.later i l).saveKey = s.saveKey.map (later i l) := by
  refine ite_apply .rfl (map_apply (dropKey_later s) fun s => ?_) rfl
  simp [PendingKey.later, inFlow]

end Scanner

/-- The place behind the byte order mark of a line, if there is one. -/
def Cursor.pastMark (c : Cursor) : Cursor :=
  if c.column == 0 && c.rest.head? == some '\ufeff' then c.next else c

theorem Cursor.pastMark_later (c : Cursor) : (c.later i l).pastMark = c.pastMark.later i l :=
  ite_apply .rfl (next_later c) rfl

namespace Scanner

variable (s : Scanner)

/-- The place behind the blanks and the comment that stand before anything else of a line. -/
def pastBlanks : Cursor :=
  let c := s.cursor.pastMark
  let tabs := s.inFlow || !s.keyAllowed
  let c := c.skipWhile fun ch => ch == ' ' || (tabs && ch == '\t')
  if c.rest.head? == some '#' then c.skipLine else c

theorem toNextToken_succ (fuel : Nat) : s.toNextToken (fuel + 1) =
    match s.pastBlanks.rest with
    | ch :: _ =>
      if isBreak ch then
        toNextToken fuel ((s.moveTo s.pastBlanks.next).allowKey (s.keyAllowed || !s.inFlow))
      else s.moveTo s.pastBlanks
    | [] => s.moveTo s.pastBlanks := rfl

theorem pastBlanks_later : (s.later i l).pastBlanks = s.pastBlanks.later i l := by
  unfold pastBlanks
  dsimp only
  rw [Cursor.pastMark_later, Cursor.skipWhile_later]
  exact ite_apply .rfl (Cursor.skipLine_later _) rfl

theorem toNextToken_later (fuel : Nat) :
    (s.later i l).toNextToken fuel = (s.toNextToken fuel).later i l := by
  induction fuel generalizing s with
  | zero => rfl
  | succ fuel ih =>
    rw [toNextToken_succ, toNextToken_succ, pastBlanks_later, Cursor.next_later, Cursor.rest_later]
    split
    · exact ite_apply .rfl (ih ((s.moveTo s.pastBlanks.next).allowKey _)) rfl
    · rfl

theorem leaveBlocks_later : (s.later i l).leaveBlocks = s.leaveBlocks.map (later i l) := by
  unfold leaveBlocks
  rw [closeBlocks_later]
  exact map_apply (dropKey_later _) fun _ => rfl

theorem single_later (t : Token) : (s.later i l).single t = (s.single t).later i l := by
  simp only [single, Cursor.next_later]
  rfl

theorem openFlow_later (t : Token) : (s.later i l).openFlow t = (s.openFlow t).map (later i l) :=
  map_apply (saveKey_later s) fun s =>
    single_later ({ s with pending := none :: s.pending, flow := s.flow + 1 }.allowKey true) t

theorem closeFlow_later (t : Token) : (s.later i l).closeFlow t = (s.closeFlow t).map (later i l) := by
  refine map_apply (dropKey_later s) fun s => ?_
  have closed : (if (s.later i l).inFlow then
      { s.later i l with pending := (s.later i l).pending.drop 1, flow := (s.later i l).flow - 1 }
      else s.later i l) =
        (if s.inFlow then { s with pending := s.pending.drop 1, flow := s.flow - 1 }
          else s).later i l :=
    ite_apply .rfl (by simp) rfl
  dsimp only
  rw [closed]
  exact single_later (allowKey _ false) t

theorem blockMark_later (opening mark : Token) (allowed : Bool) :
    (s.later i l).blockMark opening mark allowed = (s.blockMark opening mark allowed).map (later i l) := by
  unfold blockMark
  rw [openBlock_later]
  exact ite_apply .rfl rfl (map_apply (dropKey_later _) fun s => single_later (s.allowKey allowed) mark)

theorem valueMark_later : (s.later i l).valueMark = s.valueMark.map (later i l) := by
  have unmarked : (if !(s.later i l).inFlow && !(s.later i l).keyAllowed then none
      else
        let s := (s.later i l).openBlock (s.later i l).cursor.column none .blockMappingStart
        some ((s.allowKey !s.inFlow).single .value)) =
      (if !s.inFlow && !s.keyAllowed then none
      else
        let s := s.openBlock s.cursor.column none .blockMappingStart
        some ((s.allowKey !s.inFlow).single .value)).map (later i l) := by
    dsimp only
    rw [openBlock_later]
    generalize s.openBlock s.cursor.column none .blockMappingStart = opened
    exact ite_apply .rfl rfl (congrArg some (single_later (opened.allowKey !opened.inFlow) .value))
  unfold valueMark
  rw [show (s.later i l).pending = s.pending.map (Option.map (PendingKey.later i l)) from rfl]
  obtain _ | ⟨_ | k, others⟩ := s.pending
  · exact unmarked
  · exact unmarked
  · have placed : ((s.later i l).emitAt (k.later i l).position .key).openBlock (k.later i l).column
        (some (k.later i l).position) .blockMappingStart =
          ((s.emitAt k.position .key).openBlock k.column (some k.position)
            .blockMappingStart).later i l :=
      openBlock_later (s.emitAt k.position .key) ..
    refine congrArg some ?_
    rw [placed]
    generalize (s.emitAt k.position .key).openBlock k.column _ _ = opened
    exact single_later ({ opened with pending := none :: others }.allowKey false) .value

theorem content_later {read : Cursor → Option (Token × Cursor)}
    (steady : ∀ c : Cursor, read (c.later i l) = (read c).map (behind i l)) :
    (s.later i l).content read = (s.content read).map (later i l) :=
  map_bind (saveKey_later s) fun s => map_apply (steady s.cursor) fun _ => rfl

theorem plainToken_later : (s.later i l).plainToken = s.plainToken.map (later i l) :=
  map_bind (saveKey_later s) fun _ => map_apply (Scalar.plain_later ..) fun _ => rfl

theorem blockToken_later (folded : Bool) :
    (s.later i l).blockToken folded = (s.blockToken folded).map (later i l) :=
  map_bind (dropKey_later s) fun _ => map_apply (Scalar.block_later ..) fun _ => rfl

theorem quotedToken_later (single : Bool) :
    (s.later i l).quotedToken single = (s.quotedToken single).map (later i l) :=
  content_later s fun c => map_apply (Scalar.quoted_later single c) fun _ => rfl

theorem fetch_later : (s.later i l).fetch = s.fetch.map (later i l) := by
  have anchored (t : String → Token) (c : Cursor) :
      (anchorName (c.later i l)).map (fun p => (t p.1, p.2)) =
        ((anchorName c).map fun p => (t p.1, p.2)).map (behind i l) :=
    map_apply (anchorName_later c) fun _ => rfl
  unfold fetch
  dsimp only
  split
  · rfl
  · refine ite_apply .rfl
      (map_bind (leaveBlocks_later s) fun _ => map_apply (directive_later _) fun _ => rfl) ?_
    refine ite_apply .rfl (map_apply (leaveBlocks_later s) fun _ => ?_) ?_
    · rw [Cursor.skip_later]
      rfl
    refine ite_apply .rfl (openFlow_later s _) (ite_apply .rfl (openFlow_later s _) ?_)
    refine ite_apply .rfl (closeFlow_later s _) (ite_apply .rfl (closeFlow_later s _) ?_)
    refine ite_apply .rfl (map_apply (dropKey_later s) fun s => single_later (s.allowKey true) _) ?_
    refine ite_apply .rfl (blockMark_later s ..) (ite_apply .rfl (blockMark_later s ..) ?_)
    refine ite_apply .rfl (valueMark_later s) ?_
    refine ite_apply .rfl (content_later s (anchored .alias)) ?_
    refine ite_apply .rfl (content_later s (anchored .anchor)) ?_
    refine ite_apply .rfl (content_later s fun c => tag_later c _) ?_
    refine ite_apply .rfl (blockToken_later s _) (ite_apply .rfl (blockToken_later s _) ?_)
    refine ite_apply .rfl (quotedToken_later s _) (ite_apply .rfl (quotedToken_later s _) ?_)
    exact ite_apply .rfl (plainToken_later s) rfl

/-- The tokens of a text do not depend on what stands before it. -/
theorem run_later (fuel : Nat) : run fuel (s.later i l) = run fuel s := by
  induction fuel generalizing s with
  | zero => rfl
  | succ fuel ih =>
    rw [run, run]
    dsimp only
    rw [toNextToken_later, dropStale_later]
    cases (s.toNextToken (s.cursor.rest.length + 1)).dropStale with
    | none => rfl
    | some s =>
      dsimp only [Option.map_some]
      rw [closeBlocks_later, fetch_later, leaveBlocks_later]
      refine ite_apply (f := id) .rfl ?_ ?_
      · rw [Option.map_map]
        rfl
      · cases (s.closeBlocks s.cursor.column).fetch with
        | none => rfl
        | some s => exact ih s

end Scanner

namespace Cursor

theorem next_of_plain {c : Cursor} {ch : Char} {after : List Char} (rest : c.rest = ch :: after)
    (plain : isBreak ch = false) : c.next = ⟨after, c.index + ch.utf8Size, c.line, c.column + 1⟩ := by
  obtain ⟨_, index, line, column⟩ := c
  subst rest
  unfold next
  split
  · contradiction
  · rename_i same
    cases same
    exact absurd plain (by decide)
  · rename_i same
    cases same
    rw [plain]
    rfl

theorem length_next_lt {c : Cursor} {ch : Char} {after : List Char} (rest : c.rest = ch :: after) :
    c.next.rest.length < c.rest.length := by
  obtain ⟨_, index, line, column⟩ := c
  subst rest
  unfold next
  split
  · contradiction
  · rename_i same
    cases same
    simp only [List.length_cons]
    omega
  · rename_i same
    cases same
    split <;> simp

theorem length_next_le (c : Cursor) : c.next.rest.length ≤ c.rest.length := by
  cases rest : c.rest with
  | nil => simp [next, rest]
  | cons ch after => exact rest ▸ Nat.le_of_lt (length_next_lt rest)

theorem length_skip_le (n : Nat) (c : Cursor) : (c.skip n).rest.length ≤ c.rest.length := by
  induction n generalizing c with
  | zero => exact Nat.le_refl _
  | succ n ih => exact Nat.le_trans (ih c.next) (length_next_le c)

theorem length_pastMark_le (c : Cursor) : c.pastMark.rest.length ≤ c.rest.length := by
  unfold pastMark
  split
  · exact length_next_le c
  · exact Nat.le_refl _

end Cursor

namespace Scanner

theorem length_pastBlanks_le (s : Scanner) : s.pastBlanks.rest.length ≤ s.cursor.rest.length := by
  have mark := Cursor.length_pastMark_le s.cursor
  have blanks (p : Char → Bool) : (s.cursor.pastMark.skipWhile p).rest.length ≤ s.cursor.rest.length :=
    Nat.le_trans (Cursor.length_skip_le ..) mark
  unfold pastBlanks
  dsimp only
  split
  · exact Nat.le_trans (Cursor.length_skip_le ..) (blanks _)
  · exact blanks _

theorem toNextToken_more {fuel : Nat} (s : Scanner) (enough : s.cursor.rest.length < fuel) :
    s.toNextToken (fuel + 1) = s.toNextToken fuel := by
  induction fuel generalizing s with
  | zero => contradiction
  | succ fuel ih =>
    rw [toNextToken_succ s (fuel + 1), toNextToken_succ s fuel]
    split
    · rename_i rest
      have shorter := Nat.lt_of_lt_of_le (Cursor.length_next_lt rest) (length_pastBlanks_le s)
      rw [ih _ (Nat.lt_of_lt_of_le shorter (Nat.le_of_lt_succ enough))]
    · rfl

theorem toNextToken_enough {fuel : Nat} (s : Scanner) (enough : s.cursor.rest.length < fuel) :
    s.toNextToken fuel = s.toNextToken (s.cursor.rest.length + 1) := by
  induction enough with
  | refl => rfl
  | step enough ih => rw [toNextToken_more s enough, ih]

theorem run_more {fuel : Nat} {ts : List Token} (s : Scanner) (more : Nat)
    (read : run fuel s = some ts) : run (fuel + more) s = some ts := by
  induction fuel generalizing s with
  | zero => cases read
  | succ fuel ih =>
    rw [Nat.add_right_comm]
    unfold run at read ⊢
    dsimp only at read ⊢
    cases kept : (s.toNextToken (s.cursor.rest.length + 1)).dropStale with
    | none =>
      rw [kept] at read
      cases read
    | some s' =>
      rw [kept] at read
      dsimp only at read ⊢
      split at read
      · rw [if_pos ‹_›]
        exact read
      · rw [if_neg ‹_›]
        obtain ⟨after, fetched, others⟩ := Option.bind_eq_some_iff.mp read
        rw [fetched]
        exact ih after others

theorem run_of_toNextToken {fuel : Nat} {s t : Scanner}
    (same : s.toNextToken (s.cursor.rest.length + 1) = t.toNextToken (t.cursor.rest.length + 1)) :
    run fuel s = run fuel t := by
  cases fuel with
  | zero => rfl
  | succ fuel => rw [run, run, same]

end Scanner

def commentLine (comment text : List Char) : List Char := '#' :: comment ++ '\n' :: text

variable {comment text : List Char}

theorem Cursor.skip_plain {front : List Char} (plain : ∀ ch ∈ front, isBreak ch = false) (c : Cursor)
    (back : List Char) (rest : c.rest = front ++ back) :
    ∃ index column, c.skip front.length = ⟨back, index, c.line, column⟩ := by
  induction front generalizing c with
  | nil =>
    obtain ⟨_, index, line, column⟩ := c
    cases rest
    exact ⟨index, column, rfl⟩
  | cons ch front ih =>
    obtain ⟨first, others⟩ := List.forall_mem_cons.mp plain
    have moved := next_of_plain rest first
    obtain ⟨index, column, there⟩ := ih others c.next (by rw [moved]; rfl)
    rw [moved] at there
    exact ⟨index, column, by rw [List.length_cons, skip, moved, there]⟩

theorem Cursor.skipLine_comment (plain : ∀ ch ∈ comment, isBreak ch = false) (text : List Char) :
    ∃ index column, skipLine { rest := commentLine comment text } =
      ⟨'\n' :: text, index, 0, column⟩ := by
  have unbroken : ∀ ch ∈ '#' :: comment, isBreak ch = false :=
    List.forall_mem_cons.mpr ⟨by decide, plain⟩
  have front : (commentLine comment text).takeWhile (fun ch => !isBreak ch) = '#' :: comment := by
    rw [commentLine, List.takeWhile_append_of_pos fun ch mem => by rw [unbroken ch mem]; rfl]
    simp [isBreak]
  have skipped := skip_plain unbroken { rest := commentLine comment text } ('\n' :: text) rfl
  rwa [skipLine, skipWhile, front]

theorem Scanner.toNextToken_commentLine (plain : ∀ ch ∈ comment, isBreak ch = false)
    (text : List Char) (fuel : Nat) :
    ∃ i, toNextToken (fuel + 1) { cursor := { rest := commentLine comment text } } =
      (toNextToken fuel { cursor := { rest := text } }).later i 1 := by
  obtain ⟨index, column, skipped⟩ := Cursor.skipLine_comment plain text
  have passed : pastBlanks { cursor := { rest := commentLine comment text } } =
      ⟨'\n' :: text, index, 0, column⟩ := skipped
  have moved : Cursor.next ⟨'\n' :: text, index, 0, column⟩ = ⟨text, index + 1, 1, 0⟩ := rfl
  refine ⟨index + 1, ?_⟩
  rw [toNextToken_succ, passed, ← toNextToken_later, moved]
  refine congrArg (toNextToken fuel) ?_
  simp only [later, Cursor.later, Nat.zero_add]
  rfl

/-- Behind a comment line a text has the same tokens. -/
theorem scan_commentLine {ts : List Token} (allowed : ∀ ch ∈ comment, isAllowed ch = true)
    (plain : ∀ ch ∈ comment, isBreak ch = false) (read : scan text = some ts) :
    scan (commentLine comment text) = some ts := by
  unfold scan at read ⊢
  obtain ⟨valid, read⟩ := Option.ite_none_right_eq_some.mp read
  have valid_line : (commentLine comment text).all isAllowed = true := by
    rw [commentLine, List.all_append, List.all_cons, List.all_cons, valid,
      List.all_eq_true.mpr allowed]
    decide
  have longer : (commentLine comment text).length = text.length + (comment.length + 2) := by
    simp only [commentLine, List.length_append, List.length_cons]
    omega
  -- the first step passes the line, and from there on only the places differ
  obtain ⟨i, first⟩ := Scanner.toNextToken_commentLine plain text
    (commentLine comment text).length
  have enough : text.length < (commentLine comment text).length := by omega
  have same : Scanner.toNextToken ((commentLine comment text).length + 1)
      { cursor := { rest := commentLine comment text } } =
        (Scanner.later i 1 { cursor := { rest := text } }).toNextToken (text.length + 1) := by
    rw [first, Scanner.toNextToken_later,
      Scanner.toNextToken_enough (s := { cursor := { rest := text } }) enough]
  rw [if_pos valid_line, Scanner.run_of_toNextToken same, Scanner.run_later, longer,
    Nat.add_right_comm]
  exact Scanner.run_more _ (comment.length + 2) read

theorem document?_commentLine {d : Document} (allowed : ∀ ch ∈ comment, isAllowed ch = true)
    (plain : ∀ ch ∈ comment, isBreak ch = false) (read : document? text = some d) :
    document? (commentLine comment text) = some d := by
  obtain ⟨root, parsed, linked⟩ := Option.bind_eq_some_iff.mp read
  obtain ⟨ts, scanned, nodes⟩ := Option.bind_eq_some_iff.mp parsed
  rw [document?, parse?, scan_commentLine allowed plain scanned, Option.bind_some, nodes]
  exact linked

end RuleRegistry.Yaml
