import LatencyLog.Json.Quoted

/-! # Spellings of quoted texts

* `Json.SpellsCode`: four hexadecimal digits of a code, in letters of either case.
* `Json.SpellsCharacter`: a character as it may stand between quotes: raw, after a backslash, or as
  one code or a pair of surrogate codes.
* `Json.SpellsText`: a quoted text.
* `Json.Quoted.run_of_spellsCharacters`: the machine takes every spelling of a character as that
  character.
-/

namespace LatencyLog.Json

set_option autoImplicit false

/-! ## Spellings -/

/-- A letter for a hexadecimal digit. -/
def IsHexLetter (d : Fin 16) (letter : Char) : Prop :=
  letter = Nat.digitChar d ∨ letter = (Nat.digitChar d).toUpper

inductive SpellsCode : Nat → List Char → Prop where
  | group {a b c d : Fin 16} {first second third fourth : Char} (ha : IsHexLetter a first)
      (hb : IsHexLetter b second) (hc : IsHexLetter c third) (hd : IsHexLetter d fourth) :
      SpellsCode (((a.val * 16 + b) * 16 + c) * 16 + d) [first, second, third, fourth]

/-- The letters that may stand after a backslash, and the characters that they are for. -/
def shortEscapes : List (Char × Char) :=
  [('"', '"'), ('\\', '\\'), ('/', '/'), ('b', '\x08'), ('f', '\x0c'), ('n', '\n'), ('r', '\r'),
    ('t', '\t')]

inductive SpellsCharacter : Char → List Char → Prop where
  | raw {c : Char} (printable : 0x20 ≤ c.toNat) (notQuote : c ≠ '"') (notBackslash : c ≠ '\\') :
      SpellsCharacter c [c]
  | short {letter c : Char} (h : (letter, c) ∈ shortEscapes) : SpellsCharacter c ['\\', letter]
  | code {c : Char} {group : List Char} (h : SpellsCode c.toNat group) :
      SpellsCharacter c ('\\' :: 'u' :: group)
  | pair {c : Char} {high low : List Char} (large : 0x10000 ≤ c.toNat)
      (hhigh : SpellsCode (0xD800 + (c.toNat - 0x10000) / 0x400) high)
      (hlow : SpellsCode (0xDC00 + (c.toNat - 0x10000) % 0x400) low) :
      SpellsCharacter c ('\\' :: 'u' :: high ++ '\\' :: 'u' :: low)

inductive SpellsCharacters : List Char → List Char → Prop where
  | nil : SpellsCharacters [] []
  | cons {c : Char} {rest first more : List Char} (head : SpellsCharacter c first)
      (tail : SpellsCharacters rest more) : SpellsCharacters (c :: rest) (first ++ more)

/-- Whether a character may stand raw between quotes. -/
def isPlain (c : Char) : Bool := decide (0x20 ≤ c.toNat) && c != '"' && c != '\\'

theorem spellsCharacters_raw {text : List Char} (h : text.all isPlain = true) :
    SpellsCharacters text text := by
  induction text with
  | nil => exact .nil
  | cons c rest ih =>
    rw [List.all_cons, Bool.and_eq_true] at h
    obtain ⟨plain, later⟩ := h
    simp only [isPlain, Bool.and_eq_true, decide_eq_true_eq, bne_iff_ne] at plain
    obtain ⟨⟨printable, notQuote⟩, notBackslash⟩ := plain
    exact .cons (.raw printable notQuote notBackslash) (ih later)

/-- A text between quotes. -/
def SpellsText (text : String) (cs : List Char) : Prop :=
  ∃ inner, SpellsCharacters text.toList inner ∧ cs = '"' :: (inner ++ ['"'])

/-! ## Codes read -/

theorem hexDigit?_digitChar : ∀ d : Fin 16, hexDigit? (Nat.digitChar d) = some d.val := by decide

theorem hexDigit?_toUpper :
    ∀ d : Fin 16, hexDigit? (Nat.digitChar d).toUpper = some d.val := by decide

theorem hexDigit?_of_isHexLetter {d : Fin 16} {letter : Char} (h : IsHexLetter d letter) :
    hexDigit? letter = some d.val := by
  rcases h with small | capital
  · rw [small, hexDigit?_digitChar]
  · rw [capital, hexDigit?_toUpper]

theorem utf8Size_digitChar : ∀ d : Fin 16, (Nat.digitChar d).utf8Size = 1 := by decide

theorem utf8Size_toUpper : ∀ d : Fin 16, (Nat.digitChar d).toUpper.utf8Size = 1 := by decide

theorem utf8Size_of_isHexLetter {d : Fin 16} {letter : Char} (h : IsHexLetter d letter) :
    letter.utf8Size = 1 := by
  rcases h with small | capital
  · rw [small, utf8Size_digitChar]
  · rw [capital, utf8Size_toUpper]

namespace Quoted

variable {done : List Char} {high : Option Nat} {n : Nat}

def advance? (q : Quoted) (c : Char) : Option Quoted :=
  match q.step c with
  | .ok (.pending next) => some next
  | .ok (.closed _) => none
  | .error _ => none

/-- The text continued by characters, none of which closes it. -/
def run (q : Quoted) (cs : List Char) : Option Quoted := cs.foldlM advance? q

theorem step_eq_of_advance? {q next : Quoted} {c : Char} (h : q.advance? c = some next) :
    q.step c = .ok (.pending next) := by
  rw [advance?] at h
  split at h
  · next read =>
    cases h
    exact read
  · cases h
  · cases h

theorem run_cons {q next : Quoted} {c : Char} (h : q.step c = .ok (.pending next))
    (rest : List Char) : q.run (c :: rest) = next.run rest := by
  rw [run, List.foldlM_cons, advance?, h]
  rfl

theorem run_append (q : Quoted) (before after : List Char) :
    q.run (before ++ after) = (q.run before).bind fun r => r.run after :=
  List.foldlM_append

theorem step_group {d : Fin 16} {letter : Char} {seen : Nat} (h : IsHexLetter d letter)
    (early : seen < 3) :
    (Quoted.mk done (.group high seen (some n))).step letter =
      .ok (.pending ⟨done, .group high (seen + 1) (some (n * 16 + d))⟩) := by
  have more : seen + 1 < 4 := by omega
  simp only [step, groupCharacter, withHexDigit?, hexDigit?_of_isHexLetter h,
    utf8Size_of_isHexLetter h, if_pos more, await]

theorem step_groupEnd {d : Fin 16} {letter : Char} (h : IsHexLetter d letter) :
    (Quoted.mk done (.group high 3 (some n))).step letter =
      unit ⟨done, .absent⟩ high (n * 16 + d) := by
  have last : ¬3 + 1 < 4 := by omega
  simp only [step, groupCharacter, withHexDigit?, hexDigit?_of_isHexLetter h,
    utf8Size_of_isHexLetter h, if_neg last]
  rfl

theorem run_code {code : Nat} {cs : List Char} (h : SpellsCode code cs) {next : Quoted}
    (judged : unit ⟨done, .absent⟩ high code = .ok (.pending next)) :
    (Quoted.mk done (.group high 0 (some 0))).run cs = some next := by
  obtain ⟨ha, hb, hc, hd⟩ := h
  rw [run_cons (step_group ha (by omega)), run_cons (step_group hb (by omega)),
    run_cons (step_group hc (by omega))]
  simp only [Nat.zero_mul, Nat.zero_add]
  exact run_cons ((step_groupEnd hd).trans judged) []

/-! ## Characters read -/

theorem toNat_range (c : Char) :
    c.toNat < 0xD800 ∨ 0xDFFF < c.toNat ∧ c.toNat < 0x110000 := c.valid

theorem unit_toNat (c : Char) :
    unit ⟨done, .absent⟩ none c.toNat = .ok (.pending ⟨c :: done, .absent⟩) := by
  have range := toNat_range c
  have notLow : isLowSurrogate c.toNat = false := by
    simp only [isLowSurrogate, Bool.and_eq_false_iff, decide_eq_false_iff_not]
    omega
  have notHigh : isHighSurrogate c.toNat = false := by
    simp only [isHighSurrogate, Bool.and_eq_false_iff, decide_eq_false_iff_not]
    omega
  simp only [unit, notHigh, notLow, push, Char.ofNat_toNat, Bool.false_eq_true, if_false]

theorem unit_of_high {n : Nat} (h : isHighSurrogate n = true) :
    unit ⟨done, .absent⟩ none n = .ok (.pending ⟨done, .lowBackslash n⟩) := by
  have notLow : isLowSurrogate n = false := by
    simp only [isHighSurrogate, Bool.and_eq_true, decide_eq_true_eq] at h
    simp only [isLowSurrogate, Bool.and_eq_false_iff, decide_eq_false_iff_not]
    omega
  simp only [unit, notLow, h, await, Bool.false_eq_true, if_false, if_true]

theorem unit_high (c : Char) :
    unit ⟨done, .absent⟩ none (0xD800 + (c.toNat - 0x10000) / 0x400) =
      .ok (.pending ⟨done, .lowBackslash (0xD800 + (c.toNat - 0x10000) / 0x400)⟩) := by
  have range := toNat_range c
  refine unit_of_high ?_
  simp only [isHighSurrogate, Bool.and_eq_true, decide_eq_true_eq]
  omega

theorem unit_low {c : Char} (large : 0x10000 ≤ c.toNat) :
    unit ⟨done, .absent⟩ (some (0xD800 + (c.toNat - 0x10000) / 0x400))
        (0xDC00 + (c.toNat - 0x10000) % 0x400) =
      .ok (.pending ⟨c :: done, .absent⟩) := by
  have isLow : isLowSurrogate (0xDC00 + (c.toNat - 0x10000) % 0x400) = true := by
    simp only [isLowSurrogate, Bool.and_eq_true, decide_eq_true_eq]
    omega
  have code : 0x10000 + (0xD800 + (c.toNat - 0x10000) / 0x400 - 0xD800) * 0x400 +
      (0xDC00 + (c.toNat - 0x10000) % 0x400 - 0xDC00) = c.toNat := by omega
  simp only [unit, isLow, if_true, push, surrogatePair, code, Char.ofNat_toNat]

theorem escaped?_of_mem_shortEscapes :
    ∀ e ∈ shortEscapes, e.1 ≠ 'u' ∧ escaped? e.1 = some e.2 := by decide

theorem run_of_spellsCharacter {c : Char} {cs : List Char} (h : SpellsCharacter c cs) :
    (Quoted.mk done .absent).run cs = some ⟨c :: done, .absent⟩ := by
  have begun : ∀ rest, (Quoted.mk done .absent).run ('\\' :: rest) =
      (Quoted.mk done .begun).run rest := fun rest => run_cons rfl rest
  have code : ∀ rest, (Quoted.mk done .begun).run ('u' :: rest) =
      (Quoted.mk done (.group none 0 (some 0))).run rest := fun rest => run_cons rfl rest
  cases h with
  | raw printable notQuote notBackslash =>
    have taken : (Quoted.mk done .absent).step c = .ok (.pending ⟨c :: done, .absent⟩) := by
      have notControl : ¬c.toNat < 0x20 := Nat.not_lt.mpr printable
      simp only [step, if_neg notQuote, if_neg notBackslash, if_neg notControl, push]
    exact run_cons taken []
  | @short letter _ h =>
    obtain ⟨notCode, known⟩ := escaped?_of_mem_shortEscapes _ h
    have taken : (Quoted.mk done .begun).step letter = .ok (.pending ⟨c :: done, .absent⟩) := by
      simp only [step, if_neg notCode, known, push]
    rw [begun]
    exact run_cons taken []
  | code h => rw [begun, code, run_code h (unit_toNat c)]
  | @pair _ high low large hhigh hlow =>
    have letter : ∀ rest, (Quoted.mk done
        (.lowBackslash (0xD800 + (c.toNat - 0x10000) / 0x400))).run ('\\' :: 'u' :: rest) =
          (Quoted.mk done (.group (some (0xD800 + (c.toNat - 0x10000) / 0x400)) 0 (some 0))).run
            rest := fun rest => by rw [run_cons rfl, run_cons rfl]
    rw [List.cons_append, List.cons_append, begun, code, run_append,
      run_code hhigh (unit_high c), Option.bind_some, letter, run_code hlow (unit_low large)]

/-- **The machine takes each spelling as the characters that it spells.** -/
theorem run_of_spellsCharacters {text cs : List Char} (h : SpellsCharacters text cs) :
    (Quoted.mk done .absent).run cs = some ⟨text.reverse ++ done, .absent⟩ := by
  induction h generalizing done with
  | nil => rfl
  | @cons c rest first more head tail ih =>
    rw [run_append, run_of_spellsCharacter head, Option.bind_some, ih, List.reverse_cons,
      List.append_assoc, List.singleton_append]

end Quoted

end LatencyLog.Json
