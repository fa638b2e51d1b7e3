import HybridTM.Json.Print
import HybridTM.Json.Token
import Mathlib.Tactic.IntervalCases

/-!
# Spelling of tokens

A text spells a list of tokens if it is made of them in order, with blanks wherever one likes, and
no number is followed by a character that could belong to it (`Spells`). The numbers and strings
among the tokens have to be such as can be written: no leading zeros, no exponent part without
digits, and text within quotes (`Token.IsProper`).

The scanner finds in such a text the tokens that it spells (`tokens?_of_spells`). It is a machine
over characters, so each kind of token has one lemma that says where the machine stands after the
token's characters, whatever it has read before and whatever comes next (`Scan.read_token`).
-/

set_option autoImplicit false

namespace HybridTM

namespace Json

/-! ## Spelling -/

/-- What may stand between tokens. -/
def isBlank (c : Char) : Bool := [' ', '\t', '\n', '\r'].contains c

/-- No number goes on with this character. -/
def isApart (c : Char) : Bool :=
  (Digit.ofChar? c).isNone && !(['.', 'e', 'E', '+', '-'].contains c)

/-- A number may stand before this text. -/
def Apart (cs : List Char) : Prop := ∀ c ∈ cs.head?, isApart c = true

/-- A number that can be written. -/
structure Number.IsProper (n : Number) : Prop where
  /-- There are digits before the point, and a leading zero stands alone. -/
  whole : ∃ d ds, n.whole = d :: ds ∧ (d = .zero → ds = [])
  /-- An exponent part has digits. -/
  exponent : ∀ e ∈ n.exponent, e.digits ≠ []

/-- The characters of a token. -/
def Token.chars : Token → List Char
  | .beginObject => ['\x7b']
  | .endObject => ['\x7d']
  | .beginArray => ['[']
  | .endArray => [']']
  | .comma => [',']
  | .colon => [':']
  | .null => ['n', 'u', 'l', 'l']
  | .bool b => boolChars b
  | .number n => n.chars
  | .string text => stringChars text

/-- A token that can be written. -/
def Token.IsProper : Token → Prop
  | .number n => n.IsProper
  | .string text => text.isSome
  | _ => True

/-- A token ends where the text that follows it begins. -/
def Token.EndsBefore : Token → List Char → Prop
  | .number _, cs => Apart cs
  | _, _ => True

/-- A text is made of tokens, with blanks between them. -/
inductive Spells : List Token → List Char → Prop
  /-- Nothing is made of no tokens. -/
  | nil : Spells [] []
  /-- A blank adds nothing. -/
  | blank {ts : List Token} {c : Char} {cs : List Char} (blank : isBlank c = true)
      (rest : Spells ts cs) : Spells ts (c :: cs)
  /-- A token in front is the first one. -/
  | token {t : Token} {ts : List Token} {cs : List Char} (proper : t.IsProper)
      (ends : t.EndsBefore cs) (rest : Spells ts cs) : Spells (t :: ts) (t.chars ++ cs)

theorem apart_nil : Apart [] := by
  intro c hc
  cases hc

theorem apart_cons {c : Char} {cs : List Char} (h : isApart c = true) : Apart (c :: cs) := by
  intro x hx
  obtain rfl := Option.some.inj hx
  exact h

/-! ## Pieces of strings -/

/-- The piece of a string that is read from the characters written for one. -/
def pieceOf (c : Char) : Piece :=
  if c < ' ' ∧ ['\x08', '\x0c', '\n', '\r', '\t'].contains c = false then .unit c.toNat else .char c

/-- A code unit that is no half of a pair stands for a character by itself. -/
theorem joinPieces_unit {n : Nat} (h : n < 0xD800) (ps : List Piece) :
    joinPieces (.unit n :: ps) = (joinPieces ps).map (Char.ofNat n :: ·) := by
  have hhigh : isHighSurrogate n = false := by
    simp only [isHighSurrogate, Bool.and_eq_false_iff, decide_eq_false_iff_not]
    omega
  have hlow : isLowSurrogate n = false := by
    simp only [isLowSurrogate, Bool.and_eq_false_iff, decide_eq_false_iff_not]
    omega
  -- What follows matters to the pattern only if it is a unit as well.
  rcases ps with _ | ⟨c | m, rest⟩
  · simp [joinPieces, hhigh, hlow]
  · simp [joinPieces, hhigh, hlow]
  · simp [joinPieces, hhigh, hlow]

/-- The pieces of written characters stand for these characters. -/
theorem joinPieces_map_pieceOf (cs : List Char) : joinPieces (cs.map pieceOf) = some cs := by
  induction cs with
  | nil => rfl
  | cons c cs ih =>
    rw [List.map_cons, pieceOf]
    split
    · next h =>
      have hlt : c.toNat < 32 := h.1
      rw [joinPieces_unit (by omega), ih, Char.ofNat_toNat]
      rfl
    · rw [joinPieces, ih]
      rfl

theorem hexValue?_hexDigit {n : Nat} (h : n < 16) : hexValue? (hexDigit n) = some n := by
  interval_cases n <;> rfl

namespace Scan

variable {acc : List Token} {cs ds : List Char}

/-! ## Reading on -/

/-- The tokens of a text, read on from somewhere. -/
def read (s : Scan) (cs : List Char) : Option (List Token) := (s.run cs).bind finish

theorem run_append (s : Scan) (cs ds : List Char) :
    s.run (cs ++ ds) = (s.run cs).bind fun s' => s'.run ds :=
  List.foldlM_append

theorem run_cons (s : Scan) (c : Char) (cs : List Char) :
    s.run (c :: cs) = (s.step c).bind fun s' => s'.run cs :=
  List.foldlM_cons

theorem read_cons (s : Scan) (c : Char) (cs : List Char) :
    s.read (c :: cs) = (s.step c).bind fun s' => s'.read cs := by
  rw [read, run_cons, Option.bind_assoc]
  rfl

/-- The characters of a text that leads to another place can be skipped. -/
theorem read_append {s s' : Scan} (h : s.run cs = some s') (ds : List Char) :
    s.read (cs ++ ds) = s'.read ds := by
  rw [read, run_append, h, Option.bind_some]
  rfl

/-! ## Numbers -/

/-- The part that is read last in a complete number. -/
def lastPart (n : Number) : NumberPart :=
  if n.exponent.isSome then .exponent
  else if n.fraction ≠ [] then .fraction
  else if n.whole = [.zero] then .zero
  else .whole

theorem isComplete_lastPart (n : Number) : (lastPart n).isComplete = true := by
  unfold lastPart
  split_ifs <;> rfl

/-- A character that does not belong to a number does not extend it. -/
theorem extend?_of_isApart (part : NumberPart) (n : Number) {c : Char} (h : isApart c = true) :
    Number.extend? part n c = none := by
  simp only [isApart, Bool.and_eq_true, Option.isNone_iff_eq_none, Bool.not_eq_true',
    List.contains_eq_mem, decide_eq_false_iff_not, List.mem_cons, List.not_mem_nil, or_false,
    not_or] at h
  obtain ⟨hdigit, hpoint, he, hE, hplus, hminus⟩ := h
  cases part <;> simp [Number.extend?, hdigit, hpoint, he, hE, hplus, hminus]

/-- A complete number is a token as soon as something else follows. -/
theorem read_number_apart {part : NumberPart} {n : Number} (complete : part.isComplete = true)
    (h : Apart cs) : read ⟨acc, .number part n⟩ cs = read ⟨.number n :: acc, .blank⟩ cs := by
  cases cs with
  | nil => simp [read, run, finish, complete]
  | cons c cs =>
    have hnone := extend?_of_isApart part n (h c rfl)
    have hstep : step ⟨acc, .number part n⟩ c = step ⟨.number n :: acc, .blank⟩ c := by
      simp only [step, hnone, complete, if_true]
      rfl
    rw [read_cons, read_cons, hstep]

/-- Digits are collected one by one in the part that is being read. -/
theorem run_digits {part : NumberPart} (field : List Digit → Number)
    (h : ∀ ds d, Number.extend? part (field ds) d.char = some (part, field (ds ++ [d])))
    (before ds : List Digit) :
    run ⟨acc, .number part (field before)⟩ (Decimal.chars ds) =
      some ⟨acc, .number part (field (before ++ ds))⟩ := by
  induction ds generalizing before with
  | nil => rw [List.append_nil]; rfl
  | cons d ds ih =>
    have hstep : step ⟨acc, .number part (field before)⟩ d.char =
        some ⟨acc, .number part (field (before ++ [d]))⟩ := by
      simp only [step, h]
    rw [Decimal.chars, List.map_cons, run_cons, hstep, Option.bind_some,
      List.append_cons before d ds]
    exact ih (before ++ [d])

/-- The digits before the point. -/
theorem run_whole (negative : Bool) {d : Digit} {ds : List Digit} (h : d = .zero → ds = []) :
    run ⟨acc, .number .sign ⟨negative, [], [], none⟩⟩ (Decimal.chars (d :: ds)) =
      some ⟨acc, .number (lastPart ⟨negative, d :: ds, [], none⟩)
        ⟨negative, d :: ds, [], none⟩⟩ := by
  rw [Decimal.chars, List.map_cons, run_cons]
  by_cases hd : d = .zero
  · -- Nothing but the point or the exponent part may follow a zero.
    subst hd
    rw [h rfl]
    rfl
  · have hstep : step ⟨acc, .number .sign ⟨negative, [], [], none⟩⟩ d.char =
        some ⟨acc, .number .whole ⟨negative, [d], [], none⟩⟩ := by
      simp [step, Number.extend?, Digit.ofChar?_char, hd]
    have hlast : lastPart ⟨negative, d :: ds, [], none⟩ = .whole := by
      simp [lastPart, hd]
    rw [hstep, hlast]
    refine run_digits (fun ds => ⟨negative, ds, [], none⟩) ?_ [d] ds
    intro ds d
    simp [Number.extend?, Digit.ofChar?_char]

/-- The point and the digits after it. -/
theorem run_fraction {negative : Bool} {whole : List Digit} (d : Digit) (ds : List Digit) :
    run ⟨acc, .number (lastPart ⟨negative, whole, [], none⟩) ⟨negative, whole, [], none⟩⟩
        ('.' :: Decimal.chars (d :: ds)) =
      some ⟨acc, .number .fraction ⟨negative, whole, d :: ds, none⟩⟩ := by
  have hpoint : step ⟨acc, .number (lastPart ⟨negative, whole, [], none⟩)
      ⟨negative, whole, [], none⟩⟩ '.' =
        some ⟨acc, .number .point ⟨negative, whole, [], none⟩⟩ := by
    have hdigit : Digit.ofChar? '.' = none := rfl
    by_cases hzero : whole = [.zero] <;> simp [step, lastPart, hzero, Number.extend?, hdigit]
  have hfirst : step ⟨acc, .number .point ⟨negative, whole, [], none⟩⟩ d.char =
      some ⟨acc, .number .fraction ⟨negative, whole, [d], none⟩⟩ := by
    simp [step, Number.extend?, Digit.ofChar?_char]
  rw [run_cons, hpoint, Option.bind_some, Decimal.chars, List.map_cons, run_cons, hfirst]
  refine run_digits (fun ds => ⟨negative, whole, ds, none⟩) ?_ [d] ds
  intro ds d
  simp [Number.extend?, Digit.ofChar?_char]

/-- The exponent part. -/
theorem run_exponent {negative : Bool} {whole fraction : List Digit} {e : Exponent}
    (h : e.digits ≠ []) :
    run ⟨acc, .number (lastPart ⟨negative, whole, fraction, none⟩)
        ⟨negative, whole, fraction, none⟩⟩ e.chars =
      some ⟨acc, .number .exponent ⟨negative, whole, fraction, some e⟩⟩ := by
  obtain ⟨below, digits⟩ := e
  obtain ⟨d, ds, rfl⟩ := List.exists_cons_of_ne_nil h
  have hmark : step ⟨acc, .number (lastPart ⟨negative, whole, fraction, none⟩)
      ⟨negative, whole, fraction, none⟩⟩ 'e' =
        some ⟨acc, .number .exponentMark ⟨negative, whole, fraction, some ⟨false, []⟩⟩⟩ := by
    have hdigit : Digit.ofChar? 'e' = none := rfl
    by_cases hfraction : fraction = [] <;> by_cases hzero : whole = [.zero] <;>
      simp [step, lastPart, hfraction, hzero, Number.extend?, hdigit]
  have hsign : step ⟨acc, .number .exponentMark ⟨negative, whole, fraction, some ⟨false, []⟩⟩⟩
      (if below then '-' else '+') =
        some ⟨acc, .number .exponentSign ⟨negative, whole, fraction, some ⟨below, []⟩⟩⟩ := by
    have hplus : Digit.ofChar? '+' = none := rfl
    have hminus : Digit.ofChar? '-' = none := rfl
    cases below <;> simp [step, Number.extend?, hplus, hminus]
  have hfirst : step ⟨acc, .number .exponentSign
      ⟨negative, whole, fraction, some ⟨below, []⟩⟩⟩ d.char =
        some ⟨acc, .number .exponent ⟨negative, whole, fraction, some ⟨below, [d]⟩⟩⟩ := by
    simp [step, Number.extend?, Digit.ofChar?_char, Number.pushExponent]
  rw [Exponent.chars, run_cons, hmark, Option.bind_some, run_cons, hsign, Option.bind_some,
    Decimal.chars, List.map_cons, run_cons, hfirst]
  refine run_digits (fun ds => ⟨negative, whole, fraction, some ⟨below, ds⟩⟩) ?_ [d] ds
  intro ds d
  simp [Number.extend?, Digit.ofChar?_char, Number.pushExponent]

/-- The first digit of a number without sign is read as it is after a sign. -/
theorem step_blank_digit (d : Digit) :
    step ⟨acc, .blank⟩ d.char = step ⟨acc, .number .sign ⟨false, [], [], none⟩⟩ d.char := by
  obtain ⟨n, hn⟩ := d
  interval_cases n <;> rfl

/-- The characters of a number, from its sign on. -/
theorem run_number {n : Number} (h : n.IsProper) :
    run ⟨acc, .blank⟩ n.chars = some ⟨acc, .number (lastPart n) n⟩ := by
  obtain ⟨negative, whole, fraction, exponent⟩ := n
  obtain ⟨⟨d, ds, hwhole, hzero⟩, hexponent⟩ := h
  simp only at hwhole hexponent
  subst hwhole
  -- After the sign, or at once if there is none, the digits before the point are read.
  have hsign (rest : List Char) :
      run ⟨acc, .blank⟩ ((if negative then ['-'] else []) ++ (Decimal.chars (d :: ds) ++ rest)) =
        run ⟨acc, .number .sign ⟨negative, [], [], none⟩⟩
          (Decimal.chars (d :: ds) ++ rest) := by
    cases negative with
    | true => rfl
    | false =>
      rw [if_neg Bool.false_ne_true, List.nil_append, Decimal.chars, List.map_cons,
        List.cons_append, run_cons, run_cons, step_blank_digit]
  have hfraction :
      run ⟨acc, .number (lastPart ⟨negative, d :: ds, [], none⟩) ⟨negative, d :: ds, [], none⟩⟩
          (if fraction = [] then [] else '.' :: Decimal.chars fraction) =
        some ⟨acc, .number (lastPart ⟨negative, d :: ds, fraction, none⟩)
          ⟨negative, d :: ds, fraction, none⟩⟩ := by
    cases fraction with
    | nil => rfl
    | cons f fs =>
      rw [if_neg (List.cons_ne_nil f fs), run_fraction]
      simp [lastPart]
  rw [Number.chars]
  simp only [List.append_assoc]
  rw [hsign, run_append, run_whole negative hzero, Option.bind_some, run_append, hfraction,
    Option.bind_some]
  cases exponent with
  | none => rfl
  | some e =>
    rw [run_exponent (hexponent e rfl)]
    simp [lastPart]

/-! ## Strings -/

/-- The code of a character is read back. -/
theorem run_code {n : Nat} (h : n < 0x10000) (ps : List Piece) :
    run ⟨acc, .code ps 0 4⟩ (hexDigits 4 n) = some ⟨acc, .text (.unit n :: ps)⟩ := by
  have hdigit (k : Nat) : hexValue? (hexDigit (k % 16)) = some (k % 16) :=
    hexValue?_hexDigit (Nat.mod_lt k (by decide))
  have hsum : (((n / 16 / 16 / 16 % 16) * 16 + n / 16 / 16 % 16) * 16 + n / 16 % 16) * 16 + n % 16
      = n := by
    omega
  simp only [hexDigits, List.nil_append, List.cons_append, run_cons, step, hdigit]
  simp [run, hsum]

/-- The characters that are written for one become its piece. -/
theorem run_escape (c : Char) (ps : List Piece) :
    run ⟨acc, .text ps⟩ (escape c) = some ⟨acc, .text (pieceOf c :: ps)⟩ := by
  unfold escape
  split
  case h_8 hquote hbackslash hb hf hn hr ht =>
    split
    · next hlt =>
      have hpiece : pieceOf c = .unit c.toNat := by
        rw [pieceOf, if_pos]
        refine ⟨hlt, ?_⟩
        simp only [List.contains_eq_mem, List.mem_cons, List.not_mem_nil, or_false,
          decide_eq_false_iff_not, not_or]
        exact ⟨hb, hf, hn, hr, ht⟩
      have hsmall : c.toNat < 32 := hlt
      rw [hpiece, ← run_code (by omega)]
      rfl
    · next hge =>
      have hpiece : pieceOf c = .char c := if_neg fun h => hge h.1
      rw [hpiece, run_cons]
      simp only [step, hge, if_false]
      rw [if_neg hquote, if_neg hbackslash]
      rfl
  all_goals rfl

/-- The characters of a text between its quotes. -/
theorem run_flatMap_escape (ps : List Piece) (cs : List Char) :
    run ⟨acc, .text ps⟩ (cs.flatMap escape) =
      some ⟨acc, .text ((cs.map pieceOf).reverse ++ ps)⟩ := by
  induction cs generalizing ps with
  | nil => rfl
  | cons c cs ih =>
    rw [List.flatMap_cons, run_append, run_escape, Option.bind_some, ih, List.map_cons,
      List.reverse_cons, List.append_assoc]
    rfl

/-- A written string is read as the text that it is. -/
theorem run_string (s : String) :
    run ⟨acc, .blank⟩ (stringChars (some s)) = some ⟨.string (some s) :: acc, .blank⟩ := by
  have htext : textOf ((s.toList.map pieceOf).reverse ++ []).reverse = some s := by
    rw [List.append_nil, List.reverse_reverse, textOf, joinPieces_map_pieceOf, Option.map_some,
      String.ofList_toList]
  rw [stringChars, Option.getD_some, run_cons]
  show run ⟨acc, .text []⟩ (s.toList.flatMap escape ++ ['"']) = _
  rw [run_append, run_flatMap_escape, Option.bind_some]
  show some (emit _ (.string (textOf _))) = _
  rw [htext]
  rfl

/-! ## Tokens -/

/-- The characters of a token are read as this token. -/
theorem read_token {t : Token} (proper : t.IsProper) (ends : t.EndsBefore cs) :
    read ⟨acc, .blank⟩ (t.chars ++ cs) = read ⟨t :: acc, .blank⟩ cs := by
  cases t with
  | number n =>
    rw [Token.chars, read_append (run_number proper)]
    exact read_number_apart (isComplete_lastPart n) ends
  | string text =>
    obtain ⟨s, rfl⟩ := Option.isSome_iff_exists.1 proper
    exact read_append (run_string s) cs
  | bool b => cases b <;> rfl
  | _ => rfl

theorem read_blank {c : Char} (h : isBlank c = true) :
    read ⟨acc, .blank⟩ (c :: cs) = read ⟨acc, .blank⟩ cs := by
  simp only [isBlank, List.contains_eq_mem, List.mem_cons, List.not_mem_nil, or_false,
    decide_eq_true_eq] at h
  rcases h with rfl | rfl | rfl | rfl <;> rfl

/-- What is spelled is read, after everything that was read before. -/
theorem read_of_spells {ts : List Token} (h : Spells ts cs) (acc : List Token) :
    read ⟨acc, .blank⟩ cs = some (acc.reverse ++ ts) := by
  induction h generalizing acc with
  | nil => rw [List.append_nil]; rfl
  | blank hblank _ ih => rw [read_blank hblank, ih]
  | token proper ends _ ih => rw [read_token proper ends, ih, List.reverse_cons,
      List.append_assoc, List.singleton_append]

end Scan

/-- The tokens of a text are those that it spells. -/
theorem tokens?_of_spells {ts : List Token} {cs : List Char} (h : Spells ts cs) :
    tokens? cs = some ts :=
  Scan.read_of_spells h []

end Json

end HybridTM
