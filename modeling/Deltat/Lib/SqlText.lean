import Mathlib.Data.List.Infix
import Mathlib.Tactic.Tauto

/-! # The text of a SQL statement

Where literals, quoted identifiers, comments and parameters begin and end in a text, as PostgreSQL
reads it. No text is lost between the tokens, so that a text is the rendering of its tokens, and a
list of tokens can be read back exactly when each of them ends before the next.
-/

namespace Lib.SqlText

def isIdentStart (c : Char) : Bool := c.isAlpha || c == '_' || 128 ≤ c.toNat

/-- What the tag of a dollar quote may have. -/
def isTagPart (c : Char) : Bool := isIdentStart c || c.isDigit

def isIdentPart (c : Char) : Bool := isTagPart c || c == '$'

inductive Token where
  /-- `'...'`, by its content. -/
  | literal (content : List Char)
  /-- `E'...'`, as it is written. -/
  | escaped (letter : Char) (raw : List Char)
  /-- `U&'...'`, by its content. -/
  | unicode (letter : Char) (content : List Char)
  /-- `"..."`, by its content. -/
  | quoted (content : List Char)
  /-- `$tag$...$tag$`. -/
  | dollar (tag body : List Char)
  /-- `--` and what follows on the line. -/
  | line (raw : List Char)
  /-- A comment between `/*` and `*/`, which can be nested, as it is written. -/
  | block (raw : List Char)
  /-- `$1` -/
  | param (digits : List Char)
  /-- A `$` that begins neither a parameter nor a literal. -/
  | named (name : List Char)
  | word (text : List Char)
  | symbol (c : Char)
  /-- What the text begins and does not end. -/
  | unclosed (raw : List Char)
  deriving DecidableEq

/-- Quotes inside quotes are doubled. -/
def double (q : Char) (content : List Char) : List Char := content.flatMap fun c => if c = q then [q, q] else [c]

def delimiter (tag : List Char) : List Char := '$' :: (tag ++ ['$'])

def Token.text : Token → List Char
  | literal content => '\'' :: (double '\'' content ++ ['\''])
  | escaped letter raw => letter :: '\'' :: (raw ++ ['\''])
  | unicode letter content => letter :: '&' :: '\'' :: (double '\'' content ++ ['\''])
  | quoted content => '"' :: (double '"' content ++ ['"'])
  | dollar tag body => delimiter tag ++ (body ++ delimiter tag)
  | line raw => '-' :: '-' :: raw
  | block raw => '/' :: '*' :: raw
  | param digits => '$' :: digits
  | named name => '$' :: name
  | word text => text
  | symbol c => [c]
  | unclosed raw => raw

def render (tokens : List Token) : List Char := tokens.flatMap Token.text

@[simp] theorem render_nil : render [] = [] := rfl

@[simp] theorem render_cons (t : Token) (rest : List Token) : render (t :: rest) = t.text ++ render rest := rfl

@[simp] theorem render_append (before after : List Token) : render (before ++ after) = render before ++ render after :=
  List.flatMap_append

/-! ## Reading -/

/-- Put what was read in front of what is read next. -/
def prepend (read : List Char) : List Char × List Char → List Char × List Char
  | (content, rest) => (read ++ content, rest)

/-- The content up to a closing quote, and what follows it. -/
def scanQuoted (q : Char) : List Char → Option (List Char × List Char)
  | [] => none
  | [c] => if c = q then some ([], []) else none
  | c :: d :: rest =>
      if c = q then
        if d = q then (scanQuoted q rest).map (prepend [q]) else some ([], d :: rest)
      else (scanQuoted q (d :: rest)).map (prepend [c])

/-- The same where a backslash takes the next character with it. -/
def scanEscaped : List Char → Option (List Char × List Char)
  | [] => none
  | [c] => if c = '\'' then some ([], []) else none
  | c :: d :: rest =>
      if c = '\\' then (scanEscaped rest).map (prepend [c, d])
      else if c = '\'' then
        if d = '\'' then (scanEscaped rest).map (prepend [c, d]) else some ([], d :: rest)
      else (scanEscaped (d :: rest)).map (prepend [c])

/-- The rest of a comment inside `depth` others. -/
def scanBlock (depth : Nat) : List Char → Option (List Char × List Char)
  | [] => none
  | [_] => none
  | c :: d :: rest =>
      if c = '*' ∧ d = '/' then
        match depth with
        | 0 => some ([c, d], rest)
        | depth + 1 => (scanBlock depth rest).map (prepend [c, d])
      else if c = '/' ∧ d = '*' then (scanBlock (depth + 1) rest).map (prepend [c, d])
      else (scanBlock depth (d :: rest)).map (prepend [c])

/-- What stands before a delimiter, and what follows it. -/
def scanTo (d : List Char) : List Char → Option (List Char × List Char)
  | [] => none
  | c :: rest => if d.isPrefixOf (c :: rest) then some ([], (c :: rest).drop d.length) else (scanTo d rest).map (prepend [c])

/-- A token that was closed, or else all the text that is left. -/
def closed (text : List Char) (make : List Char → Token) (scanned : Option (List Char × List Char)) : Token × List Char :=
  match scanned with
  | some (content, rest) => (make content, rest)
  | none => (.unclosed text, [])

/-- The token that begins with a `$`. -/
def nextDollar (rest : List Char) : Token × List Char :=
  if rest.head?.any (·.isDigit) then (.param (rest.takeWhile (·.isDigit)), rest.dropWhile (·.isDigit))
  else
    let tag := rest.takeWhile isTagPart
    let after := rest.dropWhile isTagPart
    if after.head? = some '$' then closed ('$' :: rest) (.dollar tag) (scanTo (delimiter tag) after.tail)
    else (.named tag, after)

/-- The token that begins with a letter. -/
def nextWord (c : Char) (rest : List Char) : Token × List Char :=
  let more := rest.takeWhile isIdentPart
  let after := rest.dropWhile isIdentPart
  if more = [] ∧ (c = 'e' ∨ c = 'E') ∧ after.head? = some '\'' then closed (c :: rest) (.escaped c) (scanEscaped after.tail)
  else if more = [] ∧ (c = 'u' ∨ c = 'U') ∧ after.take 2 = ['&', '\''] then
    closed (c :: rest) (.unicode c) (scanQuoted '\'' (after.drop 2))
  else (.word (c :: more), after)

/-- The first token of a text, and the text after it. -/
def next (c : Char) (rest : List Char) : Token × List Char :=
  if c = '\'' then closed (c :: rest) .literal (scanQuoted '\'' rest)
  else if c = '"' then closed (c :: rest) .quoted (scanQuoted '"' rest)
  else if c = '-' ∧ rest.head? = some '-' then (.line (rest.tail.takeWhile (· ≠ '\n')), rest.tail.dropWhile (· ≠ '\n'))
  else if c = '/' ∧ rest.head? = some '*' then closed (c :: rest) .block (scanBlock 0 rest.tail)
  else if c = '$' then nextDollar rest
  else if isIdentStart c then nextWord c rest
  else (.symbol c, rest)

/-! ## What a scan finds -/

section

variable {q : Char} {x content raw s s' d : List Char} {depth : Nat} {read : List Char}

theorem map_prepend_eq_some {o : Option (List Char × List Char)} : o.map (prepend read) = some (content, s) ↔
    ∃ rest, o = some (rest, s) ∧ content = read ++ rest := by
  cases o with
  | none => simp
  | some r =>
      obtain ⟨rest, s₀⟩ := r
      simp [prepend]
      tauto

theorem scanQuoted_sound (scanned : scanQuoted q x = some (content, s)) :
    x = double q content ++ q :: s ∧ s.head? ≠ some q := by
  fun_induction scanQuoted q x generalizing content with
  | case1 => cases scanned
  | case2 =>
      cases scanned
      simp [double]
  | case3 => cases scanned
  | case4 rest ih =>
      obtain ⟨more, again, rfl⟩ := map_prepend_eq_some.mp scanned
      obtain ⟨same, other⟩ := ih again
      exact ⟨by simp [double] at same ⊢; exact same, other⟩
  | case5 d rest different =>
      cases scanned
      simpa [double] using different
  | case6 c d rest different ih =>
      obtain ⟨more, again, rfl⟩ := map_prepend_eq_some.mp scanned
      obtain ⟨same, other⟩ := ih again
      exact ⟨by rw [same]; simp [double, different], other⟩

/-- A quoted content is read back wherever no other quote follows. -/
theorem scanQuoted_double (other : s.head? ≠ some q) : scanQuoted q (double q content ++ q :: s) = some (content, s) := by
  induction content with
  | nil =>
      cases s with
      | nil => simp [double, scanQuoted]
      | cons d s =>
          have different : d ≠ q := by simpa using other
          simp [double, scanQuoted, different]
  | cons c content ih =>
      by_cases same : c = q
      · subst same
        have text : double c (c :: content) ++ c :: s = c :: c :: (double c content ++ c :: s) := by simp [double]
        rw [text, scanQuoted, if_pos rfl, if_pos rfl, ih]
        rfl
      · have text : double q (c :: content) ++ q :: s = c :: (double q content ++ q :: s) := by simp [double, same]
        obtain ⟨d, rest, more⟩ : ∃ d rest, double q content ++ q :: s = d :: rest := by
          cases double q content with
          | nil => exact ⟨q, s, rfl⟩
          | cons d rest => exact ⟨d, rest ++ q :: s, rfl⟩
        rw [text, more, scanQuoted, if_neg same, ← more, ih]
        rfl

theorem scanEscaped_sound (scanned : scanEscaped x = some (raw, s)) : x = raw ++ '\'' :: s ∧ s.head? ≠ some '\'' := by
  fun_induction scanEscaped x generalizing raw with
  | case1 => cases scanned
  | case2 =>
      cases scanned
      simp
  | case3 => cases scanned
  | case4 d rest ih =>
      obtain ⟨more, again, rfl⟩ := map_prepend_eq_some.mp scanned
      obtain ⟨same, other⟩ := ih again
      exact ⟨by rw [same]; rfl, other⟩
  | case5 rest _ ih =>
      obtain ⟨more, again, rfl⟩ := map_prepend_eq_some.mp scanned
      obtain ⟨same, other⟩ := ih again
      exact ⟨by rw [same]; rfl, other⟩
  | case6 d rest different _ =>
      cases scanned
      simpa using different
  | case7 c d rest _ _ ih =>
      obtain ⟨more, again, rfl⟩ := map_prepend_eq_some.mp scanned
      obtain ⟨same, other⟩ := ih again
      exact ⟨by rw [same]; rfl, other⟩

theorem scanEscaped_change (scanned : scanEscaped x = some (raw, s)) (other : s'.head? ≠ some '\'') :
    scanEscaped (raw ++ '\'' :: s') = some (raw, s') := by
  have ends : scanEscaped ('\'' :: s') = some ([], s') := by
    cases s' with
    | nil => simp [scanEscaped]
    | cons d rest =>
        have different : d ≠ '\'' := by simpa using other
        simp [scanEscaped, different]
  fun_induction scanEscaped x generalizing raw with
  | case1 => cases scanned
  | case2 =>
      cases scanned
      exact ends
  | case3 => cases scanned
  | case4 d rest ih =>
      obtain ⟨more, again, rfl⟩ := map_prepend_eq_some.mp scanned
      simp [scanEscaped, ih again, prepend]
  | case5 rest _ ih =>
      obtain ⟨more, again, rfl⟩ := map_prepend_eq_some.mp scanned
      simp [scanEscaped, ih again, prepend]
  | case6 d rest _ _ =>
      cases scanned
      exact ends
  | case7 c d rest plain open_ ih =>
      obtain ⟨more, again, rfl⟩ := map_prepend_eq_some.mp scanned
      obtain ⟨e, text, same⟩ : ∃ e text, more ++ '\'' :: s' = e :: text := by
        cases more with
        | nil => exact ⟨_, _, rfl⟩
        | cons e more => exact ⟨_, _, rfl⟩
      have found := ih again
      rw [same] at found
      simp [same, scanEscaped, plain, open_, found, prepend]

theorem scanBlock_sound (scanned : scanBlock depth x = some (raw, s)) : x = raw ++ s ∧ raw ≠ [] := by
  fun_induction scanBlock depth x generalizing raw with
  | case1 => cases scanned
  | case2 => cases scanned
  | case3 =>
      cases scanned
      simp_all
  | case4 =>
      rename_i ih
      obtain ⟨more, again, rfl⟩ := map_prepend_eq_some.mp scanned
      exact ⟨by rw [(ih again).1]; rfl, by simp⟩
  | case5 =>
      rename_i ih
      obtain ⟨more, again, rfl⟩ := map_prepend_eq_some.mp scanned
      exact ⟨by rw [(ih again).1]; rfl, by simp⟩
  | case6 =>
      rename_i ih
      obtain ⟨more, again, rfl⟩ := map_prepend_eq_some.mp scanned
      exact ⟨by rw [(ih again).1]; rfl, by simp⟩

/-- A comment ends by itself. -/
theorem scanBlock_change (scanned : scanBlock depth x = some (raw, s)) : scanBlock depth (raw ++ s') = some (raw, s') := by
  fun_induction scanBlock depth x generalizing raw with
  | case1 => cases scanned
  | case2 => cases scanned
  | case3 c d rest ends =>
      cases scanned
      simp [scanBlock, ends]
  | case4 c d rest ends depth ih =>
      obtain ⟨more, again, rfl⟩ := map_prepend_eq_some.mp scanned
      simp [scanBlock, ends, ih again, prepend]
  | case5 depth c d rest inner begins ih =>
      obtain ⟨more, again, rfl⟩ := map_prepend_eq_some.mp scanned
      simp [scanBlock, begins, ih again, prepend]
  | case6 depth c d rest ends begins ih =>
      obtain ⟨more, again, rfl⟩ := map_prepend_eq_some.mp scanned
      obtain ⟨same, some_⟩ := scanBlock_sound again
      cases more with
      | nil => exact absurd rfl some_
      | cons e more =>
          cases same
          have found := ih again
          rw [List.cons_append] at found
          simp [scanBlock, ends, begins, found, prepend]

theorem scanTo_sound (scanned : scanTo d x = some (content, s)) : x = content ++ (d ++ s) := by
  induction x generalizing content with
  | nil => cases scanned
  | cons c rest ih =>
      unfold scanTo at scanned
      split at scanned
      · next here =>
          cases scanned
          obtain ⟨after, same⟩ := List.isPrefixOf_iff_prefix.mp here
          rw [← same]
          simp
      · obtain ⟨more, again, rfl⟩ := map_prepend_eq_some.mp scanned
        rw [ih again]
        rfl

/-- Where a delimiter is first found does not depend on what follows it. -/
theorem scanTo_change (some_ : d ≠ []) (scanned : scanTo d x = some (content, s)) :
    scanTo d (content ++ (d ++ s')) = some (content, s') := by
  induction x generalizing content with
  | nil => cases scanned
  | cons c rest ih =>
      unfold scanTo at scanned
      split at scanned
      · cases scanned
        obtain ⟨e, d', rfl⟩ := List.exists_cons_of_ne_nil some_
        have here : (e :: d').isPrefixOf (e :: (d' ++ s')) = true :=
          List.isPrefixOf_iff_prefix.mpr (List.prefix_append (e :: d') s')
        simp [scanTo, here]
      · next notHere =>
          obtain ⟨more, again, rfl⟩ := map_prepend_eq_some.mp scanned
          have same := scanTo_sound again
          have still : ¬ d.isPrefixOf (c :: (more ++ (d ++ s'))) = true := by
            intro here
            apply notHere
            have whole : d <+: (c :: more ++ d) ++ s' := by
              simpa using List.isPrefixOf_iff_prefix.mp here
            have early : d <+: c :: more ++ d :=
              List.prefix_of_prefix_length_le whole (List.prefix_append _ s') (by simp; omega)
            rw [same]
            apply List.isPrefixOf_iff_prefix.mpr
            simpa using early.trans (List.prefix_append _ s)
          change scanTo d (c :: (more ++ (d ++ s'))) = _
          rw [scanTo, if_neg still, ih again]
          rfl

/-! ## The first token -/

/-- A token with the text after it, of a text of which nothing is lost. -/
def Splits (text : List Char) (split : Token × List Char) : Prop := split.1.text ++ split.2 = text ∧ split.1.text ≠ []

theorem closed_splits {text : List Char} {make : List Char → Token} {scanned : Option (List Char × List Char)} (some_ : text ≠ [])
    (splits : ∀ content rest, scanned = some (content, rest) → Splits text (make content, rest)) :
    Splits text (closed text make scanned) := by
  unfold closed
  cases scanned with
  | none => exact ⟨List.append_nil text, some_⟩
  | some r => exact splits r.1 r.2 rfl

theorem head_tail {c : Char} (head : x.head? = some c) : x = c :: x.tail := by
  cases x with
  | nil => cases head
  | cons d rest =>
      cases head
      rfl

theorem nextDollar_splits (rest : List Char) : Splits ('$' :: rest) (nextDollar rest) := by
  unfold nextDollar
  split
  · exact ⟨by simp [Token.text, List.takeWhile_append_dropWhile], by simp [Token.text]⟩
  · simp only
    split
    · next opens =>
        apply closed_splits (List.cons_ne_nil _ _)
        intro body after scanned
        have sound := scanTo_sound scanned
        refine ⟨?_, by simp [Token.text, delimiter]⟩
        have whole := List.takeWhile_append_dropWhile (p := isTagPart) (l := rest)
        rw [head_tail opens, sound] at whole
        conv_rhs => rw [← whole]
        simp [Token.text, delimiter]
    · exact ⟨by simp [Token.text, List.takeWhile_append_dropWhile], by simp [Token.text]⟩

theorem nextWord_splits (c : Char) (rest : List Char) : Splits (c :: rest) (nextWord c rest) := by
  have whole := List.takeWhile_append_dropWhile (p := isIdentPart) (l := rest)
  unfold nextWord
  simp only
  split
  · next begins =>
      apply closed_splits (List.cons_ne_nil _ _)
      intro raw after scanned
      have sound := (scanEscaped_sound scanned).1
      rw [begins.1, head_tail begins.2.2, sound] at whole
      refine ⟨?_, by simp [Token.text]⟩
      rw [← whole]
      simp [Token.text]
  · split
    · next begins =>
        apply closed_splits (List.cons_ne_nil _ _)
        intro content after scanned
        have sound := (scanQuoted_sound scanned).1
        have two := List.take_append_drop 2 (rest.dropWhile isIdentPart)
        rw [begins.2.2, sound] at two
        rw [begins.1, ← two] at whole
        refine ⟨?_, by simp [Token.text]⟩
        rw [← whole]
        simp [Token.text]
    · exact ⟨by simp [Token.text, whole], by simp [Token.text]⟩

theorem next_splits (c : Char) (rest : List Char) : Splits (c :: rest) (next c rest) := by
  unfold next
  split
  · next quote =>
      apply closed_splits (List.cons_ne_nil _ _)
      intro content after scanned
      exact ⟨by simp [Token.text, quote, (scanQuoted_sound scanned).1], by simp [Token.text]⟩
  split
  · next quote =>
      apply closed_splits (List.cons_ne_nil _ _)
      intro content after scanned
      exact ⟨by simp [Token.text, quote, (scanQuoted_sound scanned).1], by simp [Token.text]⟩
  split
  · next begins =>
      refine ⟨?_, by simp [Token.text]⟩
      rw [begins.1, head_tail begins.2]
      simp [Token.text, List.takeWhile_append_dropWhile]
  split
  · next begins =>
      apply closed_splits (List.cons_ne_nil _ _)
      intro raw after scanned
      refine ⟨?_, by simp [Token.text]⟩
      have sound := (scanBlock_sound scanned).1
      rw [begins.1, head_tail begins.2, sound]
      simp [Token.text]
  split
  · next dollar =>
      rw [dollar]
      exact nextDollar_splits rest
  split
  · exact nextWord_splits c rest
  · exact ⟨rfl, by simp [Token.text]⟩

theorem length_next_le (c : Char) (rest : List Char) : (next c rest).2.length ≤ rest.length := by
  obtain ⟨whole, some_⟩ := next_splits c rest
  have lengths := congrArg List.length whole
  have positive := List.length_pos_iff.mpr some_
  simp only [List.length_append, List.length_cons] at lengths
  omega

/-! ## All tokens -/

def lex : List Char → List Token
  | [] => []
  | c :: rest => (next c rest).1 :: lex (next c rest).2
termination_by text => text.length
decreasing_by
  have := length_next_le c rest
  simp only [List.length_cons]
  omega

/-- No text is lost. -/
@[simp] theorem render_lex (text : List Char) : render (lex text) = text := by
  fun_induction lex text with
  | case1 => rfl
  | case2 c rest ih => rw [render_cons, ih, (next_splits c rest).1]

/-- A token that a text begins with, and that ends where the rest begins. -/
def Stops (t : Token) (rest : List Char) : Prop := ∃ c more, t.text ++ rest = c :: more ∧ next c more = (t, rest)

/-- Every token ends before the text of those after it. -/
def Separate : List Token → Prop
  | [] => True
  | t :: rest => Stops t (render rest) ∧ Separate rest

/-- Tokens are read back exactly when they are separate. -/
theorem lex_render (tokens : List Token) : lex (render tokens) = tokens ↔ Separate tokens := by
  induction tokens with
  | nil => exact ⟨fun _ => trivial, fun _ => by rw [render_nil, lex]⟩
  | cons t rest ih =>
      unfold Separate
      rw [← ih]
      constructor
      · intro same
        cases text : render (t :: rest) with
        | nil =>
            rw [text, lex] at same
            cases same
        | cons c more =>
            rw [text, lex, List.cons.injEq] at same
            have whole := (next_splits c more).1
            rw [same.1, ← text, render_cons] at whole
            have after := List.append_cancel_left whole
            exact ⟨⟨c, more, text, Prod.ext same.1 after⟩, by rw [← after, same.2]⟩
      · rintro ⟨⟨c, more, text, first⟩, again⟩
        rw [render_cons, text, lex, first, again]

theorem separate_lex (text : List Char) : Separate (lex text) := by
  rw [← lex_render, render_lex]

theorem Separate.tail {before after : List Token} (separate : Separate (before ++ after)) : Separate after := by
  induction before with
  | nil => exact separate
  | cons t before ih => exact ih separate.2

/-! ## Where a token ends -/

theorem takeWhile_append_iff {p : Char → Bool} {u : List Char} :
    (u ++ s).takeWhile p = u ∧ (u ++ s).dropWhile p = s ↔ (∀ c ∈ u, p c = true) ∧ ∀ c ∈ s.head?, p c = false := by
  induction u with
  | nil =>
      cases s with
      | nil => simp
      | cons c s => cases holds : p c <;> simp [holds]
  | cons c u ih =>
      cases holds : p c with
      | false => simp [holds]
      | true => simpa [holds] using ih

theorem closed_eq {text : List Char} {make : List Char → Token} {scanned : Option (List Char × List Char)}
    (injective : Function.Injective make) (never : ∀ raw, make content ≠ .unclosed raw) :
    closed text make scanned = (make content, s) ↔ scanned = some (content, s) := by
  unfold closed
  cases scanned with
  | none => simp [(never text).symm]
  | some r =>
      obtain ⟨found, rest⟩ := r
      simp [injective.eq_iff]

theorem stops_cons {t : Token} {c : Char} {u : List Char} (text : t.text = c :: u) : Stops t s ↔ next c (u ++ s) = (t, s) := by
  unfold Stops
  rw [text, List.cons_append]
  constructor
  · rintro ⟨d, more, same, first⟩
    cases same
    exact first
  · intro first
    exact ⟨c, _, rfl, first⟩

theorem stops_literal : Stops (.literal content) s ↔ s.head? ≠ some '\'' := by
  rw [stops_cons rfl, List.append_assoc, next, if_pos rfl]
  rw [closed_eq (fun _ _ same => by cases same; rfl) (fun _ => by simp)]
  exact ⟨fun scanned => (scanQuoted_sound scanned).2, scanQuoted_double⟩

theorem stops_quoted : Stops (.quoted content) s ↔ s.head? ≠ some '"' := by
  rw [stops_cons rfl, List.append_assoc, next, if_neg (by decide), if_pos rfl]
  rw [closed_eq (fun _ _ same => by cases same; rfl) (fun _ => by simp)]
  exact ⟨fun scanned => (scanQuoted_sound scanned).2, scanQuoted_double⟩

theorem stops_line : Stops (.line raw) s ↔ '\n' ∉ raw ∧ (s.head? = none ∨ s.head? = some '\n') := by
  rw [stops_cons rfl, List.cons_append, next, if_neg (by decide), if_neg (by decide), if_pos (by simp)]
  simp only [List.tail_cons, Prod.mk.injEq, Token.line.injEq]
  have without : (∀ c ∈ raw, decide (c ≠ '\n') = true) ↔ '\n' ∉ raw := by
    simp only [decide_eq_true_eq]
    exact ⟨fun all inside => all _ inside rfl, fun notIn c inside same => notIn (same ▸ inside)⟩
  rw [takeWhile_append_iff, without]
  cases s with
  | nil => simp
  | cons c s => simp

theorem stops_block : Stops (.block raw) s ↔ scanBlock 0 (raw ++ s) = some (raw, s) := by
  rw [stops_cons rfl, List.cons_append, next, if_neg (by decide), if_neg (by decide), if_neg (by simp), if_pos (by simp)]
  exact closed_eq (fun _ _ same => by cases same; rfl) (fun _ => by simp)

/-- A text that begins with a `$` is read by what follows it. -/
theorem next_dollar (rest : List Char) : next '$' rest = nextDollar rest := by
  rw [next, if_neg (by decide), if_neg (by decide), if_neg (by simp), if_neg (by simp), if_pos rfl]

theorem stops_param {digits : List Char} : Stops (.param digits) s ↔
    digits ≠ [] ∧ (∀ c ∈ digits, c.isDigit = true) ∧ ∀ c ∈ s.head?, c.isDigit = false := by
  rw [stops_cons rfl, next_dollar, nextDollar, ← takeWhile_append_iff]
  constructor
  · intro first
    split at first
    · next begins =>
        simp only [Prod.mk.injEq, Token.param.injEq] at first
        refine ⟨?_, first⟩
        rintro rfl
        cases s with
        | nil => cases begins
        | cons c s => simp_all
    · simp only at first
      split at first
      · unfold closed at first
        split at first <;> cases first
      · cases first
  · intro ⟨some_, whole⟩
    obtain ⟨c, digits, rfl⟩ := List.exists_cons_of_ne_nil some_
    have begins : c.isDigit = true := (takeWhile_append_iff.mp whole).1 c List.mem_cons_self
    rw [if_pos (by simpa using begins), whole.1, whole.2]

theorem stops_named {name : List Char} : Stops (.named name) s ↔
    (∀ c ∈ name, isTagPart c = true) ∧ (∀ c ∈ name.head?, c.isDigit = false) ∧ ∀ c ∈ s.head?, isIdentPart c = false := by
  rw [stops_cons rfl, next_dollar, nextDollar]
  have parts : (∀ c ∈ s.head?, isIdentPart c = false) ↔ (∀ c ∈ s.head?, isTagPart c = false) ∧ s.head? ≠ some '$' := by
    cases s with
    | nil => simp
    | cons c s => simp [isIdentPart]
  constructor
  · intro first
    split at first
    · cases first
    · next plain =>
        simp only at first
        split at first
        · unfold closed at first
          split at first <;> cases first
        · next other =>
            simp only [Prod.mk.injEq, Token.named.injEq] at first
            obtain ⟨tags, ends⟩ := takeWhile_append_iff.mp first
            rw [first.2] at other
            refine ⟨tags, ?_, parts.mpr ⟨ends, other⟩⟩
            cases name with
            | nil => simp
            | cons c name => simpa using plain
  · intro ⟨tags, plain, ends⟩
    obtain ⟨ends, other⟩ := parts.mp ends
    obtain ⟨taken, left⟩ := takeWhile_append_iff.mpr ⟨tags, ends⟩
    have noDigit : ¬ ((name ++ s).head?.any (·.isDigit)) = true := by
      cases name with
      | nil =>
          cases s with
          | nil => simp
          | cons c s =>
              have : isTagPart c = false := ends c rfl
              simp_all [isTagPart]
      | cons c name => simpa using plain c rfl
    rw [if_neg noDigit]
    simp only [taken, left, if_neg other]

theorem stops_dollar {tag body : List Char} : Stops (.dollar tag body) s ↔
    (∀ c ∈ tag, isTagPart c = true) ∧ (∀ c ∈ tag.head?, c.isDigit = false) ∧
      scanTo (delimiter tag) (body ++ (delimiter tag ++ s)) = some (body, s) := by
  have text : (Token.dollar tag body).text = '$' :: (tag ++ '$' :: (body ++ delimiter tag)) := by simp [Token.text, delimiter]
  have whole : tag ++ '$' :: (body ++ delimiter tag) ++ s = tag ++ '$' :: (body ++ (delimiter tag ++ s)) := by simp
  have stopsAt : ∀ c ∈ ('$' :: (body ++ (delimiter tag ++ s))).head?, isTagPart c = false := by
    intro c same
    cases same
    decide
  rw [stops_cons text, next_dollar, nextDollar, whole]
  constructor
  · intro first
    split at first
    · cases first
    · next plain =>
        simp only at first
        split at first
        · next opens =>
            have sameTag : (tag ++ '$' :: (body ++ (delimiter tag ++ s))).takeWhile isTagPart = tag := by
              unfold closed at first
              split at first
              · injection first with dollar
                injection dollar
              · cases first
            have left : (tag ++ '$' :: (body ++ (delimiter tag ++ s))).dropWhile isTagPart = '$' :: (body ++ (delimiter tag ++ s)) := by
              have both := List.takeWhile_append_dropWhile (p := isTagPart) (l := tag ++ '$' :: (body ++ (delimiter tag ++ s)))
              rw [sameTag] at both
              exact List.append_cancel_left both
            have tags := (takeWhile_append_iff.mp ⟨sameTag, left⟩).1
            rw [sameTag, left, List.tail_cons] at first
            refine ⟨tags, ?_, (closed_eq (fun _ _ same => by cases same; rfl) (fun _ => by simp)).mp first⟩
            cases tag with
            | nil => simp
            | cons c tag => simpa using plain
        · cases first
  · intro ⟨tags, plain, scanned⟩
    obtain ⟨taken, left⟩ := takeWhile_append_iff.mpr ⟨tags, stopsAt⟩
    have noDigit : ¬ ((tag ++ '$' :: (body ++ (delimiter tag ++ s))).head?.any (·.isDigit)) = true := by
      cases tag with
      | nil => simp
      | cons c tag => simpa using plain c rfl
    rw [if_neg noDigit]
    simp only [taken, left, List.head?_cons, if_true, List.tail_cons]
    rw [scanned]
    rfl

/-- A closed token is one that was made, or takes all the text. -/
theorem closed_cases {text : List Char} {make : List Char → Token} {scanned : Option (List Char × List Char)} {t : Token}
    (made : closed text make scanned = (t, s)) : (∃ content, t = make content) ∨ (t = .unclosed text ∧ s = []) := by
  unfold closed at made
  split at made
  · next content rest =>
      cases made
      exact .inl ⟨content, rfl⟩
  · cases made
    exact .inr ⟨rfl, rfl⟩

theorem nextDollar_cases {rest : List Char} {t : Token} (first : nextDollar rest = (t, s)) :
    (∃ digits, t = .param digits) ∨ (∃ name, t = .named name) ∨ (∃ tag body, t = .dollar tag body) ∨
      (∃ raw, t = .unclosed raw ∧ s = []) := by
  unfold nextDollar at first
  split at first
  · cases first
    exact .inl ⟨_, rfl⟩
  · simp only at first
    split at first
    · rcases closed_cases first with ⟨body, made⟩ | left
      · exact .inr (.inr (.inl ⟨_, body, made⟩))
      · exact .inr (.inr (.inr ⟨_, left⟩))
    · cases first
      exact .inr (.inl ⟨_, rfl⟩)

/-- What a character of its own begins. -/
def Token.Marked : Token → Prop
  | literal _ | quoted _ | dollar _ _ | line _ | block _ | param _ | named _ => True
  | escaped _ _ | unicode _ _ | word _ | symbol _ | unclosed _ => False

theorem next_cases {c : Char} {rest : List Char} {t : Token} (first : next c rest = (t, s)) :
    (isIdentStart c = true ∧ nextWord c rest = (t, s)) ∨ (t = .symbol c ∧ s = rest) ∨ (∃ raw, t = .unclosed raw ∧ s = []) ∨
      t.Marked := by
  unfold next at first
  split at first
  · rcases closed_cases first with ⟨content, rfl⟩ | left
    · exact .inr (.inr (.inr trivial))
    · exact .inr (.inr (.inl ⟨_, left⟩))
  split at first
  · rcases closed_cases first with ⟨content, rfl⟩ | left
    · exact .inr (.inr (.inr trivial))
    · exact .inr (.inr (.inl ⟨_, left⟩))
  split at first
  · cases first
    exact .inr (.inr (.inr trivial))
  split at first
  · rcases closed_cases first with ⟨content, rfl⟩ | left
    · exact .inr (.inr (.inr trivial))
    · exact .inr (.inr (.inl ⟨_, left⟩))
  split at first
  · rcases nextDollar_cases first with ⟨digits, rfl⟩ | ⟨name, rfl⟩ | ⟨tag, body, rfl⟩ | left
    · exact .inr (.inr (.inr trivial))
    · exact .inr (.inr (.inr trivial))
    · exact .inr (.inr (.inr trivial))
    · exact .inr (.inr (.inl left))
  split at first
  · next begins => exact .inl ⟨begins, first⟩
  · cases first
    exact .inr (.inl ⟨rfl, rfl⟩)

/-- A text that begins with a letter is read as a word. -/
theorem next_word {c : Char} (begins : isIdentStart c = true) (rest : List Char) : next c rest = nextWord c rest := by
  have not : ∀ d, isIdentStart d = false → c ≠ d := by
    intro d no same
    rw [same, no] at begins
    cases begins
  have line : ¬ (c = '-' ∧ rest.head? = some '-') := fun both => not '-' (by decide) both.1
  have block : ¬ (c = '/' ∧ rest.head? = some '*') := fun both => not '/' (by decide) both.1
  rw [next, if_neg (not _ (by decide)), if_neg (not _ (by decide)), if_neg line, if_neg block, if_neg (not _ (by decide)), if_pos begins]

theorem nextWord_cases {c : Char} {rest : List Char} {t : Token} (first : nextWord c rest = (t, s)) :
    (∃ raw, t = .escaped c raw ∧ (c = 'e' ∨ c = 'E')) ∨ (∃ content, t = .unicode c content ∧ (c = 'u' ∨ c = 'U')) ∨
      (t = .word (c :: rest.takeWhile isIdentPart) ∧ s = rest.dropWhile isIdentPart ∧
        ¬ (rest.takeWhile isIdentPart = [] ∧ (c = 'e' ∨ c = 'E') ∧ s.head? = some '\'') ∧
        ¬ (rest.takeWhile isIdentPart = [] ∧ (c = 'u' ∨ c = 'U') ∧ s.take 2 = ['&', '\''])) ∨
      (∃ raw, t = .unclosed raw ∧ s = []) := by
  unfold nextWord at first
  simp only at first
  split at first
  · next begins =>
      rcases closed_cases first with ⟨raw, made⟩ | left
      · exact .inl ⟨raw, made, begins.2.1⟩
      · exact .inr (.inr (.inr ⟨_, left⟩))
  · next notEscaped =>
      split at first
      · next begins =>
          rcases closed_cases first with ⟨content, made⟩ | left
          · exact .inr (.inl ⟨content, made, begins.2.1⟩)
          · exact .inr (.inr (.inr ⟨_, left⟩))
      · next notUnicode =>
          cases first
          exact .inr (.inr (.inl ⟨rfl, rfl, notEscaped, notUnicode⟩))

/-- What the text leaves unclosed is all of it. -/
theorem Stops.unclosed (stops : Stops (.unclosed raw) s) : s = [] := by
  obtain ⟨c, rest, _, first⟩ := stops
  rcases next_cases first with ⟨_, word⟩ | ⟨symbol, _⟩ | ⟨_, _, left⟩ | marked
  · rcases nextWord_cases word with ⟨_, made, _⟩ | ⟨_, made, _⟩ | ⟨made, _⟩ | ⟨_, _, left⟩
    · cases made
    · cases made
    · cases made
    · exact left
  · cases symbol
  · exact left
  · cases marked

theorem stops_symbol {c : Char} : Stops (.symbol c) s ↔ c ≠ '\'' ∧ c ≠ '"' ∧ c ≠ '$' ∧ isIdentStart c = false ∧
    (c = '-' → s.head? ≠ some '-') ∧ (c = '/' → s.head? ≠ some '*') := by
  rw [stops_cons rfl, List.nil_append]
  constructor
  · intro first
    refine ⟨?_, ?_, ?_, ?_, ?_, ?_⟩
    · rintro rfl
      rw [next, if_pos rfl] at first
      rcases closed_cases first with ⟨_, made⟩ | ⟨made, _⟩ <;> cases made
    · rintro rfl
      rw [next, if_neg (by decide), if_pos rfl] at first
      rcases closed_cases first with ⟨_, made⟩ | ⟨made, _⟩ <;> cases made
    · rintro rfl
      rw [next_dollar] at first
      rcases nextDollar_cases first with ⟨_, made⟩ | ⟨_, made⟩ | ⟨_, _, made⟩ | ⟨_, made, _⟩ <;> cases made
    · by_contra begins
      rw [next_word (by simpa using begins)] at first
      rcases nextWord_cases first with ⟨_, made, _⟩ | ⟨_, made, _⟩ | ⟨made, _⟩ | ⟨_, made, _⟩ <;> cases made
    · rintro rfl follows
      rw [next, if_neg (by decide), if_neg (by decide), if_pos ⟨rfl, follows⟩] at first
      cases first
    · rintro rfl follows
      rw [next, if_neg (by decide), if_neg (by decide), if_neg (by simp), if_pos ⟨rfl, follows⟩] at first
      rcases closed_cases first with ⟨_, made⟩ | ⟨made, _⟩ <;> cases made
  · intro ⟨quote, ident, dollar, start, line, block⟩
    have line' : ¬ (c = '-' ∧ s.head? = some '-') := fun both => line both.1 both.2
    have block' : ¬ (c = '/' ∧ s.head? = some '*') := fun both => block both.1 both.2
    rw [next, if_neg quote, if_neg ident, if_neg line', if_neg block', if_neg dollar, if_neg (by simp [start])]

/-- A word, of which a lone letter must not begin a literal with what follows. -/
theorem stops_word {c : Char} {more : List Char} : Stops (.word (c :: more)) s ↔
    isIdentStart c = true ∧ (∀ d ∈ more, isIdentPart d = true) ∧ (∀ d ∈ s.head?, isIdentPart d = false) ∧
      (more = [] → c = 'e' ∨ c = 'E' → s.head? ≠ some '\'') ∧ (more = [] → c = 'u' ∨ c = 'U' → s.take 2 ≠ ['&', '\'']) := by
  rw [stops_cons rfl]
  constructor
  · intro first
    rcases next_cases first with ⟨begins, word⟩ | ⟨symbol, _⟩ | ⟨_, made, _⟩ | marked
    · rcases nextWord_cases word with ⟨_, made, _⟩ | ⟨_, made, _⟩ | ⟨made, left, notEscaped, notUnicode⟩ | ⟨_, made, _⟩
      · cases made
      · cases made
      · simp only [Token.word.injEq, List.cons.injEq, true_and] at made
        obtain ⟨parts, ends⟩ := takeWhile_append_iff.mp ⟨made.symm, left.symm⟩
        rw [← made] at notEscaped notUnicode
        refine ⟨begins, parts, ends, ?_, ?_⟩
        · exact fun alone letter follows => notEscaped ⟨alone, letter, follows⟩
        · exact fun alone letter follows => notUnicode ⟨alone, letter, follows⟩
      · cases made
    · cases symbol
    · cases made
    · cases marked
  · intro ⟨begins, parts, ends, notEscaped, notUnicode⟩
    obtain ⟨taken, left⟩ := takeWhile_append_iff.mpr ⟨parts, ends⟩
    rw [next_word begins, nextWord]
    simp only [taken, left]
    rw [if_neg fun all => notEscaped all.1 all.2.1 all.2.2, if_neg fun all => notUnicode all.1 all.2.1 all.2.2]

theorem stops_escaped {letter : Char} : Stops (.escaped letter raw) s ↔
    (letter = 'e' ∨ letter = 'E') ∧ scanEscaped (raw ++ '\'' :: s) = some (raw, s) := by
  have text : (Token.escaped letter raw).text = letter :: '\'' :: (raw ++ ['\'']) := rfl
  have whole : '\'' :: (raw ++ ['\'']) ++ s = '\'' :: (raw ++ '\'' :: s) := by simp
  rw [stops_cons text, whole]
  have word : ∀ letter, letter = 'e' ∨ letter = 'E' → next letter ('\'' :: (raw ++ '\'' :: s)) =
      closed (letter :: '\'' :: (raw ++ '\'' :: s)) (.escaped letter) (scanEscaped (raw ++ '\'' :: s)) := by
    rintro letter (rfl | rfl)
    · rw [next_word (by decide), nextWord]
      simp [show isIdentPart '\'' = false by decide]
    · rw [next_word (by decide), nextWord]
      simp [show isIdentPart '\'' = false by decide]
  constructor
  · intro first
    have letters : letter = 'e' ∨ letter = 'E' := by
      rcases next_cases first with ⟨begins, lettered⟩ | ⟨symbol, _⟩ | ⟨_, made, _⟩ | marked
      · rcases nextWord_cases lettered with ⟨_, _, letters⟩ | ⟨_, made, _⟩ | ⟨made, _⟩ | ⟨_, made, _⟩
        · exact letters
        · cases made
        · cases made
        · cases made
      · cases symbol
      · cases made
      · cases marked
    rw [word letter letters] at first
    exact ⟨letters, (closed_eq (fun _ _ same => by cases same; rfl) (fun _ => by simp)).mp first⟩
  · intro ⟨letters, scanned⟩
    rw [word letter letters, scanned]
    rfl

theorem stops_unicode {letter : Char} : Stops (.unicode letter content) s ↔
    (letter = 'u' ∨ letter = 'U') ∧ s.head? ≠ some '\'' := by
  have text : (Token.unicode letter content).text = letter :: '&' :: '\'' :: (double '\'' content ++ ['\'']) := rfl
  have whole : '&' :: '\'' :: (double '\'' content ++ ['\'']) ++ s = '&' :: '\'' :: (double '\'' content ++ '\'' :: s) := by simp
  rw [stops_cons text, whole]
  have word : ∀ letter, letter = 'u' ∨ letter = 'U' → next letter ('&' :: '\'' :: (double '\'' content ++ '\'' :: s)) =
      closed (letter :: '&' :: '\'' :: (double '\'' content ++ '\'' :: s)) (.unicode letter)
        (scanQuoted '\'' (double '\'' content ++ '\'' :: s)) := by
    rintro letter (rfl | rfl)
    · rw [next_word (by decide), nextWord]
      simp [show isIdentPart '&' = false by decide]
    · rw [next_word (by decide), nextWord]
      simp [show isIdentPart '&' = false by decide]
  constructor
  · intro first
    have letters : letter = 'u' ∨ letter = 'U' := by
      rcases next_cases first with ⟨begins, lettered⟩ | ⟨symbol, _⟩ | ⟨_, made, _⟩ | marked
      · rcases nextWord_cases lettered with ⟨_, made, _⟩ | ⟨_, _, letters⟩ | ⟨made, _⟩ | ⟨_, made, _⟩
        · cases made
        · exact letters
        · cases made
        · cases made
      · cases symbol
      · cases made
      · cases marked
    rw [word letter letters] at first
    exact ⟨letters, (scanQuoted_sound ((closed_eq (fun _ _ same => by cases same; rfl) (fun _ => by simp)).mp first)).2⟩
  · intro ⟨letters, other⟩
    rw [word letter letters, scanQuoted_double other]
    rfl

/-- Whether a token ends before a character, or before the end of the text. -/
def Token.EndsBefore : Token → Option Char → Prop
  | literal _, next | escaped _ _, next | unicode _ _, next => next ≠ some '\''
  | quoted _, next => next ≠ some '"'
  | dollar _ _, _ | block _, _ => True
  | line _, next => next = none ∨ next = some '\n'
  | param _, next => ∀ c ∈ next, c.isDigit = false
  | named _, next => ∀ c ∈ next, isIdentPart c = false
  | word text, next => (∀ c ∈ next, isIdentPart c = false) ∧ (text = ['e'] ∨ text = ['E'] → next ≠ some '\'')
  | symbol c, next => (c = '-' → next ≠ some '-') ∧ (c = '/' → next ≠ some '*')
  | unclosed _, next => next = none

/-- A lone letter that begins a literal together with what follows it. -/
def OpensUnicode (t : Token) (s : List Char) : Prop := (t = .word ['u'] ∨ t = .word ['U']) ∧ s.take 2 = ['&', '\'']

theorem Stops.text_ne_nil {t : Token} (stops : Stops t s) : t.text ≠ [] := by
  obtain ⟨c, rest, _, first⟩ := stops
  have := (next_splits c rest).2
  rw [first] at this
  exact this

/-- A token that ends somewhere ends before every text that it does not run into. -/
theorem Stops.change {t : Token} (stops : Stops t s) : Stops t s' ↔ t.EndsBefore s'.head? ∧ ¬ OpensUnicode t s' := by
  have plain : (∀ text, t ≠ .word text) → ¬ OpensUnicode t s' := by
    intro other opens
    rcases opens.1 with word | word <;> exact other _ word
  cases t with
  | literal content => exact stops_literal.trans (and_iff_left (plain fun _ => by simp)).symm
  | quoted content => exact stops_quoted.trans (and_iff_left (plain fun _ => by simp)).symm
  | escaped letter raw =>
      obtain ⟨letters, scanned⟩ := stops_escaped.mp stops
      refine Iff.trans ?_ (and_iff_left (plain fun _ => by simp)).symm
      rw [stops_escaped]
      exact ⟨fun again => (scanEscaped_sound again.2).2, fun other => ⟨letters, scanEscaped_change scanned other⟩⟩
  | unicode letter content =>
      refine Iff.trans ?_ (and_iff_left (plain fun _ => by simp)).symm
      rw [stops_unicode]
      exact and_iff_right (stops_unicode.mp stops).1
  | dollar tag body =>
      refine Iff.trans ?_ (and_iff_left (plain fun _ => by simp)).symm
      obtain ⟨tags, plainTag, scanned⟩ := stops_dollar.mp stops
      exact iff_of_true (stops_dollar.mpr ⟨tags, plainTag, scanTo_change (by simp [delimiter]) scanned⟩) trivial
  | line raw =>
      refine Iff.trans ?_ (and_iff_left (plain fun _ => by simp)).symm
      rw [stops_line]
      exact and_iff_right (stops_line.mp stops).1
  | block raw =>
      refine Iff.trans ?_ (and_iff_left (plain fun _ => by simp)).symm
      exact iff_of_true (stops_block.mpr (scanBlock_change (stops_block.mp stops))) trivial
  | param digits =>
      refine Iff.trans ?_ (and_iff_left (plain fun _ => by simp)).symm
      obtain ⟨some_, numbers, _⟩ := stops_param.mp stops
      rw [stops_param]
      exact ⟨fun again => again.2.2, fun other => ⟨some_, numbers, other⟩⟩
  | named name =>
      refine Iff.trans ?_ (and_iff_left (plain fun _ => by simp)).symm
      obtain ⟨tags, plainName, _⟩ := stops_named.mp stops
      rw [stops_named]
      exact ⟨fun again => again.2.2, fun other => ⟨tags, plainName, other⟩⟩
  | symbol c =>
      refine Iff.trans ?_ (and_iff_left (plain fun _ => by simp)).symm
      obtain ⟨quote, ident, dollar, start, _⟩ := stops_symbol.mp stops
      rw [stops_symbol]
      exact ⟨fun again => again.2.2.2.2, fun other => ⟨quote, ident, dollar, start, other⟩⟩
  | unclosed raw =>
      refine Iff.trans ?_ (and_iff_left (plain fun _ => by simp)).symm
      have nothing := stops.unclosed
      subst nothing
      constructor
      · intro again
        rw [again.unclosed]
        rfl
      · intro none_
        rw [List.head?_eq_none_iff.mp none_]
        exact stops
  | word text =>
      obtain ⟨c, more, rfl⟩ := List.exists_cons_of_ne_nil stops.text_ne_nil
      obtain ⟨begins, parts, _⟩ := stops_word.mp stops
      rw [stops_word]
      unfold Token.EndsBefore OpensUnicode
      simp only [Token.word.injEq, List.cons.injEq]
      tauto

end

end Lib.SqlText
