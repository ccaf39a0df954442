import Deltat.Lib.SqlText
import Deltat.Model

/-! # Bound parameters

The extended protocol's values are written into the text of a statement before it is parsed. The
scan for `$1` looks at characters only. What it should do is said by the tokens of the text.
-/

namespace Deltat

open Lib SqlText

namespace Wire

/-- `str::parse::<usize>` of a run of digits. -/
def parseUsize (digits : List Char) : Option Nat :=
  let n := digits.foldl (fun n c => 10 * n + (c.toNat - '0'.toNat)) 0
  if n < 2 ^ 64 then some n else none

/-- The index that a run of digits spells, unless it overflows, and the text past the digits. -/
def parseParamIndex (chars : List Char) : Option Nat × List Char :=
  (parseUsize (chars.takeWhile (·.isDigit)), chars.dropWhile (·.isDigit))

theorem length_parseParamIndex_le (chars : List Char) : (parseParamIndex chars).2.length ≤ chars.length :=
  (List.dropWhile_sublist _).length_le

/-- Whether a placeholder begins at a character. -/
def beginsPlaceholder (c : Char) (rest : List Char) : Bool := c == '$' && rest.head?.any (·.isDigit)

def countFrom (highest : Nat) : List Char → Nat
  | [] => highest
  | c :: rest =>
      if beginsPlaceholder c rest then
        countFrom ((parseParamIndex rest).1.elim highest fun n => if n > highest then n else highest) (parseParamIndex rest).2
      else countFrom highest rest
termination_by chars => chars.length
decreasing_by
  · have := length_parseParamIndex_le rest
    simp only [List.length_cons]
    omega
  · simp

/-- The highest placeholder of a text. -/
def countParams (sql : List Char) : Nat := countFrom 0 sql

/-- A bound text, as `from_utf8_lossy` reads it, or NULL. -/
abbrev Params := List (Option (List Char))

/-- A text is written as a literal with its quotes doubled. -/
def spell : Option (List Char) → List Char
  | some text => '\'' :: (text.flatMap (fun c => if c = '\'' then ['\'', '\''] else [c]) ++ ['\''])
  | none => ['N', 'U', 'L', 'L']

/-- The value of an index that is in range. -/
def boundTo (params : Params) (index : Option Nat) : Option (Option (List Char)) :=
  index.bind fun n => if 1 ≤ n ∧ n ≤ params.length then params[n - 1]? else none

/-- One scan from left to right, which does not look at what it has written. -/
def substituteFrom (params : Params) : List Char → List Char
  | [] => []
  | c :: rest =>
      match if beginsPlaceholder c rest then boundTo params (parseParamIndex rest).1 else none with
      | some value => spell value ++ substituteFrom params (parseParamIndex rest).2
      | none => c :: substituteFrom params rest
termination_by chars => chars.length
decreasing_by
  · have := length_parseParamIndex_le rest
    simp only [List.length_cons]
    omega
  · simp

def substituteParams (params : Params) (sql : List Char) : List Char :=
  if params.isEmpty then sql else substituteFrom params sql

/-! ## What should be replaced -/

/-- The token that a value is written as. -/
def valueToken : Option (List Char) → Token
  | some text => .literal text
  | none => .word ['N', 'U', 'L', 'L']

/-- The value of a token that is a parameter in range. -/
def tokenValue (params : Params) : Token → Option (Option (List Char))
  | .param digits => boundTo params (parseUsize digits)
  | _ => none

/-- A parameter in range is replaced by its value, and nothing else is. -/
def bindToken (params : Params) (t : Token) : Token := ((tokenValue params t).map valueToken).getD t

def inRange (params : Params) (n : Nat) : Bool := 1 ≤ n && n ≤ params.length

/-- The index of a token that is a parameter in range. -/
def tokenIndex (params : Params) : Token → Option Nat
  | .param digits => (parseUsize digits).filter (inRange params)
  | _ => none

/-- Exactly the parameters in range are replaced, each by one literal of its value, and they are what is counted. -/
structure StaysData (params : Params) (sql : List Char) : Prop where
  text : substituteParams params sql = render ((lex sql).map (bindToken params))
  tokens : lex (substituteParams params sql) = (lex sql).map (bindToken params)
  count : countParams sql = ((lex sql).filterMap (tokenIndex params)).foldl max 0

/-! ## When it is -/

/-- The placeholder at the beginning of a text. -/
def placeholder : List Char → Option Nat
  | [] => none
  | c :: rest => if beginsPlaceholder c rest then (parseParamIndex rest).1 else none

/-- No placeholder of a value begins in a piece of text. -/
def Free (params : Params) (after : List Char) : List Char → Prop
  | [] => True
  | c :: rest => boundTo params (placeholder (c :: (rest ++ after))) = none ∧ Free params after rest

def IsParam : Token → Prop
  | .param _ => True
  | _ => False

/-- Placeholders of values are parameters: none begins in a literal, an identifier or a comment. -/
def Outside (params : Params) : List Token → Prop
  | [] => True
  | t :: rest => (¬ IsParam t → Free params (render rest) t.text) ∧ Outside params rest

/-- A token whose text ends with the quote of a string literal. -/
def ClosesLiteral : Token → Prop
  | .literal _ | .escaped _ _ | .unicode _ _ => True
  | _ => False

/-- No value runs together with its neighbours: no quote follows a literal's, no part of an identifier
    follows a NULL, and no literal follows a `U&`. -/
def Apart (params : Params) : List Token → Prop
  | [] => True
  | t :: rest =>
      (ClosesLiteral (bindToken params t) → (render (rest.map (bindToken params))).head? ≠ some '\'') ∧
      (tokenValue params t = some none → ∀ c ∈ (render (rest.map (bindToken params))).head?, isIdentPart c = false) ∧
      (t = .word ['u'] ∨ t = .word ['U'] → ∀ more, rest = .symbol '&' :: more →
        (render (more.map (bindToken params))).head? ≠ some '\'') ∧
      Apart params rest

/-- The indices of all placeholders of a text. -/
def indices : List Char → List Nat
  | [] => []
  | c :: rest => (placeholder (c :: rest)).toList ++ indices rest

section

variable {params : Params} {tokens rest : List Token} {t : Token} {s : List Char}

/-! ## The scan, token by token -/

theorem spell_valueToken (value : Option (List Char)) : (valueToken value).text = spell value := by
  cases value with
  | none => rfl
  | some text => rfl

theorem boundTo_nil (index : Option Nat) : boundTo [] index = none := by
  cases index with
  | none => rfl
  | some n => simp [boundTo]

theorem substituteFrom_cons (params : Params) (c : Char) (rest : List Char) : substituteFrom params (c :: rest) =
    (boundTo params (placeholder (c :: rest))).elim (c :: substituteFrom params rest) fun value =>
      spell value ++ substituteFrom params (parseParamIndex rest).2 := by
  rw [substituteFrom, placeholder]
  by_cases begins : beginsPlaceholder c rest = true
  · rw [if_pos begins, if_pos begins]
    cases boundTo params (parseParamIndex rest).1 <;> rfl
  · rw [if_neg begins, if_neg begins]
    rfl

theorem substituteFrom_nil_params (sql : List Char) : substituteFrom [] sql = sql := by
  induction sql with
  | nil => rw [substituteFrom]
  | cons c rest ih => rw [substituteFrom_cons, boundTo_nil, Option.elim_none, ih]

theorem substituteParams_eq (params : Params) (sql : List Char) : substituteParams params sql = substituteFrom params sql := by
  unfold substituteParams
  cases params with
  | nil => exact (substituteFrom_nil_params sql).symm
  | cons value params => rfl

/-- A value's text never begins as the placeholder did. -/
theorem spell_ne (value : Option (List Char)) (more text : List Char) : spell value ++ more ≠ '$' :: text := by
  cases value <;> simp [spell]

theorem placeholder_dollar {c : Char} {rest : List Char} (other : c ≠ '$') : placeholder (c :: rest) = none := by
  unfold placeholder beginsPlaceholder
  simp [other]

/-- A piece of text stays as it is exactly when no placeholder of a value begins in it. -/
theorem substituteFrom_append (u w : List Char) :
    substituteFrom params (u ++ s) = u ++ w ↔ Free params s u ∧ substituteFrom params s = w := by
  induction u with
  | nil => simp [Free]
  | cons c u ih =>
      rw [List.cons_append, substituteFrom_cons, Free, and_assoc, ← ih]
      cases found : boundTo params (placeholder (c :: (u ++ s))) with
      | none => simp
      | some value =>
          have dollar : c = '$' := by
            by_contra other
            rw [placeholder_dollar other] at found
            cases found
          subst dollar
          exact iff_of_false (spell_ne value _ _) (fun both => by cases both.1)

/-- Digits alone begin no placeholder. -/
theorem free_digits {digits : List Char} (numbers : ∀ c ∈ digits, c.isDigit = true) : Free params s digits := by
  induction digits with
  | nil => trivial
  | cons c digits ih =>
      have other : c ≠ '$' := by
        rintro rfl
        exact absurd (numbers _ List.mem_cons_self) (by decide)
      refine ⟨?_, ih fun d inside => numbers d (List.mem_cons_of_mem _ inside)⟩
      rw [placeholder_dollar other]
      rfl

/-- The placeholder of a parameter token is its number, as the digits end with it. -/
theorem param_parsed {digits : List Char} (stops : Stops (.param digits) s) :
    placeholder ('$' :: (digits ++ s)) = parseUsize digits ∧ (parseParamIndex (digits ++ s)).2 = s ∧
      ∀ c ∈ digits, c.isDigit = true := by
  obtain ⟨some_, numbers, ends⟩ := stops_param.mp stops
  obtain ⟨taken, left⟩ := takeWhile_append_iff.mpr ⟨numbers, ends⟩
  obtain ⟨c, more, rfl⟩ := List.exists_cons_of_ne_nil some_
  have first : c.isDigit = true := numbers c List.mem_cons_self
  refine ⟨?_, left, numbers⟩
  rw [placeholder, if_pos (by simp [beginsPlaceholder, first]), parseParamIndex, taken]

/-- A parameter token is replaced when it is in range. -/
theorem substituteFrom_param {digits : List Char} (stops : Stops (.param digits) s) :
    substituteFrom params ((Token.param digits).text ++ s) = (bindToken params (.param digits)).text ++ substituteFrom params s := by
  obtain ⟨number, left, numbers⟩ := param_parsed stops
  have bound : bindToken params (.param digits) = ((boundTo params (parseUsize digits)).map valueToken).getD (.param digits) := rfl
  change substituteFrom params ('$' :: (digits ++ s)) = _
  cases found : boundTo params (parseUsize digits) with
  | some value =>
      rw [substituteFrom_cons, number, found, left, bound, found, Option.map_some, Option.getD_some, spell_valueToken]
      rfl
  | none =>
      rw [bound, found]
      have plain : Free params s ('$' :: digits) := ⟨by rw [number, found], free_digits numbers⟩
      exact (substituteFrom_append ('$' :: digits) _).mpr ⟨plain, rfl⟩

theorem bindToken_other (other : ¬ IsParam t) : bindToken params t = t := by
  cases t with
  | param digits => exact absurd trivial other
  | _ => rfl

/-- Exactly the parameters are replaced when every placeholder of a value is one. -/
theorem substituteFrom_render (separate : Separate tokens) :
    substituteFrom params (render tokens) = render (tokens.map (bindToken params)) ↔ Outside params tokens := by
  induction tokens with
  | nil =>
      rw [render_nil, substituteFrom]
      exact iff_of_true rfl trivial
  | cons t rest ih =>
      obtain ⟨stops, separate⟩ := separate
      rw [List.map_cons, render_cons, render_cons, Outside, ← ih separate]
      by_cases param : IsParam t
      · cases t with
        | param digits =>
            rw [substituteFrom_param stops, List.append_cancel_left_eq]
            exact (and_iff_right fun other => absurd trivial other).symm
        | _ => cases param
      · rw [bindToken_other param, substituteFrom_append]
        exact and_congr_left fun _ => ⟨fun plain _ => plain, fun plain => plain param⟩

/-! ## Reading the result back -/

/-- What the text after a token begins with: as before, or with a value in the place of a placeholder. -/
theorem head_bound (separate : Separate rest) :
    (render (rest.map (bindToken params))).head? = (render rest).head? ∨
      ((render rest).head? = some '$' ∧ ((render (rest.map (bindToken params))).head? = some '\'' ∨
        (render (rest.map (bindToken params))).head? = some 'N')) := by
  cases rest with
  | nil => exact .inl rfl
  | cons t rest =>
      obtain ⟨c, text, same⟩ := List.exists_cons_of_ne_nil separate.1.text_ne_nil
      rw [List.map_cons, render_cons, render_cons]
      cases found : tokenValue params t with
      | none =>
          left
          have kept : bindToken params t = t := by rw [bindToken, found]; rfl
          rw [kept, same]
          rfl
      | some value =>
          right
          have bound : bindToken params t = valueToken value := by rw [bindToken, found]; rfl
          rw [bound, spell_valueToken]
          cases t with
          | param digits =>
              refine ⟨rfl, ?_⟩
              cases value with
              | none => exact .inr rfl
              | some text => exact .inl rfl
          | _ => cases found

/-- Only the quote of a string literal minds that a value's first character stands for a placeholder's. -/
theorem endsBefore_bound {head head' : Option Char} (ends : t.EndsBefore head) (open_ : ¬ ClosesLiteral t)
    (bound : head' = head ∨ (head = some '$' ∧ (head' = some '\'' ∨ head' = some 'N'))) : t.EndsBefore head' := by
  rcases bound with rfl | ⟨rfl, value⟩
  · exact ends
  · cases t with
    | literal | escaped | unicode => exact absurd trivial open_
    | dollar | block => trivial
    | quoted => rcases value with rfl | rfl <;> simp [Token.EndsBefore]
    | param => rcases value with rfl | rfl <;> simp [Token.EndsBefore]
    | symbol => rcases value with rfl | rfl <;> simp [Token.EndsBefore]
    | line => rcases ends with none_ | newline <;> simp_all
    | named => exact absurd (ends '$' rfl) (by decide)
    | word => exact absurd (ends.1 '$' rfl) (by decide)
    | unclosed => cases ends

/-- A text that begins with `&` and a quote is that sign and a literal after it. -/
theorem take_two_iff (separate : Separate rest) : (render (rest.map (bindToken params))).take 2 = ['&', '\''] ↔
    ∃ more, rest = .symbol '&' :: more ∧ (render (more.map (bindToken params))).head? = some '\'' := by
  constructor
  · intro two
    have head : (render (rest.map (bindToken params))).head? = some '&' := by
      have := congrArg List.head? two
      rwa [List.head?_take, if_neg (by decide)] at this
    rcases @head_bound params rest separate with same | ⟨_, quote | null⟩
    · rw [same] at head
      cases rest with
      | nil => cases head
      | cons t more =>
          obtain ⟨c, text, first, begins⟩ := separate.1
          rw [render_cons, first] at head
          cases head
          have symbol : t = .symbol '&' := by
            rw [next, if_neg (by decide), if_neg (by decide), if_neg (by simp), if_neg (by simp), if_neg (by decide),
              if_neg (by decide)] at begins
            exact (Prod.mk.inj begins).1.symm
          subst symbol
          refine ⟨more, rfl, ?_⟩
          have kept : bindToken params (.symbol '&') = .symbol '&' := rfl
          rw [List.map_cons, kept, render_cons] at two
          simpa [Token.text, List.take_succ_cons, List.take_one] using two
    · rw [quote] at head
      cases head
    · rw [null] at head
      cases head
  · rintro ⟨more, rfl, quote⟩
    have kept : bindToken params (.symbol '&') = .symbol '&' := rfl
    rw [List.map_cons, kept, render_cons]
    simp [Token.text, List.take_one, quote]

/-- A token that stays ends before what follows it now, unless a literal follows its own quote or its `U&`. -/
theorem stops_kept (stops : Stops t (render rest)) (separate : Separate rest) :
    Stops t (render (rest.map (bindToken params))) ↔
      (ClosesLiteral t → (render (rest.map (bindToken params))).head? ≠ some '\'') ∧
      (t = .word ['u'] ∨ t = .word ['U'] → ∀ more, rest = .symbol '&' :: more →
        (render (more.map (bindToken params))).head? ≠ some '\'') := by
  rw [stops.change]
  apply and_congr
  · by_cases closes : ClosesLiteral t
    · cases t with
      | literal | escaped | unicode => exact ⟨fun ends _ => ends, fun ends => ends trivial⟩
      | _ => cases closes
    · exact iff_of_true (endsBefore_bound (stops.change.mp stops).1 closes (head_bound separate)) (fun h => absurd h closes)
  · rw [OpensUnicode, take_two_iff separate]
    constructor
    · intro never letter more same quote
      exact never ⟨letter, more, same, quote⟩
    · rintro apart ⟨letter, more, same, quote⟩
      exact apart letter more same quote

/-- A value's token ends before what follows it. -/
theorem stops_value (value : Option (List Char)) : Stops (valueToken value) s ↔
    (ClosesLiteral (valueToken value) → s.head? ≠ some '\'') ∧ (value = none → ∀ c ∈ s.head?, isIdentPart c = false) := by
  cases value with
  | some text =>
      change Stops (.literal text) s ↔ _
      rw [stops_literal]
      exact ⟨fun ends => ⟨fun _ => ends, fun no => by cases no⟩, fun both => both.1 trivial⟩
  | none =>
      change Stops (.word ['N', 'U', 'L', 'L']) s ↔ _
      rw [stops_word]
      have begins : isIdentStart 'N' = true := by decide
      have parts : ∀ d ∈ ['U', 'L', 'L'], isIdentPart d = true := by simp [isIdentPart, isTagPart, isIdentStart]
      simp [begins, parts, valueToken, ClosesLiteral]

/-- The tokens with their values are read back exactly when no value runs together with its neighbours. -/
theorem separate_bound (separate : Separate tokens) : Separate (tokens.map (bindToken params)) ↔ Apart params tokens := by
  induction tokens with
  | nil => exact Iff.rfl
  | cons t rest ih =>
      obtain ⟨stops, separate⟩ := separate
      rw [List.map_cons, Separate, Apart, ih separate, ← and_assoc, ← and_assoc, and_assoc (c := _ → ∀ more, _)]
      apply and_congr_left'
      cases found : tokenValue params t with
      | some value =>
          have bound : bindToken params t = valueToken value := by rw [bindToken, found]; rfl
          have notWord : ¬ (t = .word ['u'] ∨ t = .word ['U']) := by
            rintro (rfl | rfl) <;> cases found
          rw [bound, stops_value]
          simp [notWord]
      | none =>
          have bound : bindToken params t = t := by rw [bindToken, found]; rfl
          rw [bound, stops_kept stops separate]
          simp

/-! ## Counting -/

theorem boundTo_eq_none (index : Option Nat) : boundTo params index = none ↔ index.filter (inRange params) = none := by
  cases index with
  | none => simp [boundTo]
  | some n =>
      by_cases within : 1 ≤ n ∧ n ≤ params.length
      · have index : n - 1 < params.length := by omega
        simp [boundTo, inRange, within, index, Option.filter]
      · have outside : inRange params n = false := by simpa [inRange] using within
        simp [boundTo, within, outside, Option.filter]

theorem indices_digits (chars : List Char) : indices (chars.dropWhile (·.isDigit)) = indices chars := by
  induction chars with
  | nil => rfl
  | cons c rest ih =>
      cases digit : c.isDigit with
      | false => rw [List.dropWhile_cons_of_neg (by simp [digit])]
      | true =>
          have other : c ≠ '$' := by
            rintro rfl
            cases digit
          rw [List.dropWhile_cons_of_pos digit, ih, indices, placeholder_dollar other]
          rfl

/-- The count is the highest index of all placeholders. -/
theorem countFrom_eq (highest : Nat) (chars : List Char) : countFrom highest chars = (indices chars).foldl max highest := by
  fun_induction countFrom highest chars with
  | case1 => rfl
  | case2 highest c rest begins ih =>
      simp only [dite_eq_ite] at ih
      rw [ih, parseParamIndex, indices_digits, indices, placeholder, if_pos begins, parseParamIndex, List.foldl_append]
      congr 1
      cases parseUsize (rest.takeWhile (·.isDigit)) with
      | none => rfl
      | some n =>
          simp only [Option.elim_some, Option.toList_some, List.foldl_cons, List.foldl_nil]
          split <;> omega
  | case3 highest c rest begins ih =>
      rw [ih, indices, placeholder, if_neg begins]
      rfl

theorem foldl_max_le {l : List Nat} {a b : Nat} : l.foldl max a ≤ b ↔ a ≤ b ∧ ∀ n ∈ l, n ≤ b := by
  induction l generalizing a with
  | nil => simp
  | cons n l ih =>
      rw [List.foldl_cons, ih, max_le_iff, List.forall_mem_cons, and_assoc]

theorem indices_free {u : List Char} (free : Free params s u) :
    (indices (u ++ s)).filter (inRange params) = (indices s).filter (inRange params) := by
  induction u with
  | nil => rfl
  | cons c u ih =>
      rw [List.cons_append, indices, List.filter_append, ih free.2]
      have none_ := (boundTo_eq_none _).mp free.1
      cases found : placeholder (c :: (u ++ s)) with
      | none => rfl
      | some n =>
          rw [found] at none_
          have outside : inRange params n = false := by simpa [Option.filter] using none_
          simp [outside]

theorem indices_param {digits : List Char} (stops : Stops (.param digits) s) :
    indices ((Token.param digits).text ++ s) = (parseUsize digits).toList ++ indices s := by
  obtain ⟨number, left, _⟩ := param_parsed stops
  have after : indices (digits ++ s) = indices s := by
    rw [← indices_digits (digits ++ s)]
    exact congrArg indices left
  change (placeholder ('$' :: (digits ++ s))).toList ++ indices (digits ++ s) = _
  rw [number, after]

/-- The indices in range are those of parameters. -/
theorem indices_filter (separate : Separate tokens) (outside : Outside params tokens) :
    (indices (render tokens)).filter (inRange params) = tokens.filterMap (tokenIndex params) := by
  induction tokens with
  | nil => rfl
  | cons t rest ih =>
      obtain ⟨stops, separate⟩ := separate
      have later := ih separate outside.2
      rw [render_cons]
      by_cases param : IsParam t
      · cases t with
        | param digits =>
            have index : tokenIndex params (.param digits) = (parseUsize digits).filter (inRange params) := rfl
            rw [indices_param stops, List.filter_append, later, List.filterMap_cons, index]
            cases parseUsize digits with
            | none => rfl
            | some n => cases within : inRange params n <;> simp [within, Option.filter]
        | _ => cases param
      · rw [indices_free (outside.1 param), later]
        have none_ : tokenIndex params t = none := by
          cases t with
          | param digits => exact absurd trivial param
          | _ => rfl
        rw [List.filterMap_cons_none none_]

/-- The count is that of the parameters in range exactly when no placeholder goes beyond them. -/
theorem count_iff (separate : Separate tokens) (outside : Outside params tokens) :
    countParams (render tokens) = (tokens.filterMap (tokenIndex params)).foldl max 0 ↔
      ∀ n ∈ indices (render tokens), n ≤ params.length := by
  rw [countParams, countFrom_eq, ← indices_filter separate outside]
  have upper : ((indices (render tokens)).filter (inRange params)).foldl max 0 ≤ params.length := by
    apply foldl_max_le.mpr
    refine ⟨Nat.zero_le _, fun n inside => ?_⟩
    have within := (List.mem_filter.mp inside).2
    simp only [inRange, Bool.and_eq_true, decide_eq_true_eq] at within
    exact within.2
  constructor
  · intro same n inside
    rw [← same] at upper
    exact (foldl_max_le.mp upper).2 n inside
  · intro known
    apply Nat.le_antisymm
    · apply foldl_max_le.mpr
      refine ⟨Nat.zero_le _, fun n inside => ?_⟩
      by_cases zero : n = 0
      · omega
      · have within : inRange params n = true := by
          simp only [inRange, Bool.and_eq_true, decide_eq_true_eq]
          exact ⟨by omega, known n inside⟩
        exact (foldl_max_le.mp (le_refl _)).2 n (List.mem_filter.mpr ⟨inside, within⟩)
    · apply foldl_max_le.mpr
      exact ⟨Nat.zero_le _, fun n inside => (foldl_max_le.mp (le_refl _)).2 n (List.mem_filter.mp inside).1⟩

/-- Exactly the parameters are replaced when no placeholder of a value begins elsewhere. -/
theorem text_iff (params : Params) (sql : List Char) :
    substituteParams params sql = render ((lex sql).map (bindToken params)) ↔ Outside params (lex sql) := by
  rw [substituteParams_eq, ← substituteFrom_render (separate_lex sql), render_lex]

section

variable {sql : List Char}

theorem StaysData.outside (stays : StaysData params sql) : Outside params (lex sql) := (text_iff params sql).mp stays.text

theorem StaysData.apart (stays : StaysData params sql) : Apart params (lex sql) := by
  rw [← separate_bound (separate_lex sql), ← lex_render, ← stays.text]
  exact stays.tokens

theorem StaysData.known (stays : StaysData params sql) : ∀ n ∈ indices sql, n ≤ params.length := by
  have counted := count_iff (separate_lex sql) stays.outside
  rw [render_lex] at counted
  exact counted.mp stays.count

end

end

end Wire

end Deltat
