import LatencyLog.Proofs.Json.Begun.Text

/-! # The grammar of JSON texts

Derivation trees of the grammar, which says nothing about values, depth, surrogates or the range of
numbers, and the three limits that the reading machine sets beyond it.

* `Json.Glyph`, `Json.Quotation`: what may stand between quotes, as it is written.
* `Json.Tree`: a derivation, by the kind of what it derives.
* `Json.Tree.Within`: so many lists and objects open at once, every surrogate code in a pair, and
  every number in range.
* `Json.exists_tree_iff_read`: the texts of the trees within the limits are those that are read as a
  value.
-/

namespace LatencyLog.Json

set_option autoImplicit false

/-! ## Quotations -/

/-- A letter for a hexadecimal digit. -/
structure HexLetter where
  digit : Fin 16
  capital : Bool

def HexLetter.char (x : HexLetter) : Char :=
  if x.capital then (Nat.digitChar x.digit).toUpper else Nat.digitChar x.digit

/-- What may stand between quotes: a character other than a quote, a backslash or a control
character; a letter after a backslash; a code of four letters. -/
inductive Glyph where
  | raw (c : Char) (plain : isPlain c = true)
  | short (e : Char × Char) (known : e ∈ shortEscapes)
  | code (a b c d : HexLetter)

namespace Glyph

def text : Glyph → List Char
  | raw c _ => [c]
  | short e _ => ['\\', e.1]
  | code a b c d => ['\\', 'u', a.char, b.char, c.char, d.char]

def code? : Glyph → Option Nat
  | raw _ _ => none
  | short _ _ => none
  | code a b c d => some (((a.digit.val * 16 + b.digit) * 16 + c.digit) * 16 + d.digit)

def isHigh (g : Glyph) : Bool := g.code?.any isHighSurrogate

def isLow (g : Glyph) : Bool := g.code?.any isLowSurrogate

end Glyph

abbrev Quotation := List Glyph

def Quotation.text (q : Quotation) : List Char := '"' :: (q.flatMap Glyph.text ++ ['"'])

/-- Every code of a surrogate stands in a pair of a high and a low one. -/
inductive Paired : Quotation → Prop where
  | nil : Paired []
  | other {g : Glyph} {rest : Quotation} (notHigh : g.isHigh = false) (notLow : g.isLow = false)
      (later : Paired rest) : Paired (g :: rest)
  | pair {high low : Glyph} {rest : Quotation} (hhigh : high.isHigh = true)
      (hlow : low.isLow = true) (later : Paired rest) : Paired (high :: low :: rest)

/-! ## Trees -/

inductive Kind where
  | value
  /-- A value between gaps. -/
  | item
  | items
  | member
  | members

abbrev Gap := { cs : List Char // State.IsGap cs }

inductive Tree : Kind → Type where
  | null : Tree .value
  | true : Tree .value
  | false : Tree .value
  | number (n : Numeral) : Tree .value
  | quotation (q : Quotation) : Tree .value
  | noItems (gap : Gap) : Tree .value
  | list (items : Tree .items) : Tree .value
  | noMembers (gap : Gap) : Tree .value
  | object (members : Tree .members) : Tree .value
  | item (before : Gap) (value : Tree .value) (after : Gap) : Tree .item
  | lastItem (item : Tree .item) : Tree .items
  | moreItems (item : Tree .item) (later : Tree .items) : Tree .items
  | member (before : Gap) (key : Quotation) (after : Gap) (value : Tree .item) : Tree .member
  | lastMember (member : Tree .member) : Tree .members
  | moreMembers (member : Tree .member) (later : Tree .members) : Tree .members

namespace Tree

/-- The characters that a tree derives. -/
def text {k : Kind} : Tree k → List Char
  | null => ['n', 'u', 'l', 'l']
  | true => ['t', 'r', 'u', 'e']
  | false => ['f', 'a', 'l', 's', 'e']
  | number n => n.text
  | quotation q => q.text
  | noItems gap => '[' :: (gap.val ++ [']'])
  | list items => '[' :: (items.text ++ [']'])
  | noMembers gap => '\x7b' :: (gap.val ++ ['\x7d'])
  | object members => '\x7b' :: (members.text ++ ['\x7d'])
  | item before value after => before.val ++ value.text ++ after.val
  | lastItem last => last.text
  | moreItems first later => first.text ++ ',' :: later.text
  | member before key after value => before.val ++ key.text ++ after.val ++ ':' :: value.text
  | lastMember last => last.text
  | moreMembers first later => first.text ++ ',' :: later.text

/-- How many lists and objects are open at once, at most. -/
def depth {k : Kind} : Tree k → Nat
  | null | true | false | number _ | quotation _ => 0
  | noItems _ | noMembers _ => 1
  | list items => items.depth + 1
  | object members => members.depth + 1
  | item _ value _ => value.depth
  | lastItem last => last.depth
  | moreItems first later => max first.depth later.depth
  | member _ _ _ value => value.depth
  | lastMember last => last.depth
  | moreMembers first later => max first.depth later.depth

def numerals {k : Kind} : Tree k → List Numeral
  | null | true | false | quotation _ | noItems _ | noMembers _ => []
  | number n => [n]
  | list items => items.numerals
  | object members => members.numerals
  | item _ value _ => value.numerals
  | lastItem last => last.numerals
  | moreItems first later => first.numerals ++ later.numerals
  | member _ _ _ value => value.numerals
  | lastMember last => last.numerals
  | moreMembers first later => first.numerals ++ later.numerals

/-- The quotations of a tree, keys among them. -/
def quotations {k : Kind} : Tree k → List Quotation
  | null | true | false | number _ | noItems _ | noMembers _ => []
  | quotation q => [q]
  | list items => items.quotations
  | object members => members.quotations
  | item _ value _ => value.quotations
  | lastItem last => last.quotations
  | moreItems first later => first.quotations ++ later.quotations
  | member _ key _ value => key :: value.quotations
  | lastMember last => last.quotations
  | moreMembers first later => first.quotations ++ later.quotations

/-- Whether a value, with gaps around it or not, is an object. -/
def isObject {k : Kind} : Tree k → Bool
  | noMembers _ | object _ => .true
  | item _ value _ => value.isObject
  | _ => .false

/-- The limits beyond the grammar. -/
structure Within {k : Kind} (room : Nat) (t : Tree k) : Prop where
  shallow : t.depth ≤ room
  paired : ∀ q ∈ t.quotations, Paired q
  inRange : ∀ n ∈ t.numerals, n.number?.isSome

/-! ## Limits of parts -/

variable {room : Nat} {k l : Kind}

theorem within_leaf {t : Tree k} (flat : t.depth = 0) (noQuotations : t.quotations = [])
    (noNumerals : t.numerals = []) : t.Within room where
  shallow := by omega
  paired q hq := by simp [noQuotations] at hq
  inRange n hn := by simp [noNumerals] at hn

/-- The limits hold of two trees just if they hold of a third that holds what both hold. -/
theorem within_both_iff {t : Tree k} {u : Tree l} {m : Kind} {both : Tree m}
    (depth : both.depth = max t.depth u.depth)
    (quotations : both.quotations = t.quotations ++ u.quotations)
    (numerals : both.numerals = t.numerals ++ u.numerals) :
    both.Within room ↔ t.Within room ∧ u.Within room := by
  constructor
  · intro h
    have shallow := h.shallow
    have paired := h.paired
    have inRange := h.inRange
    rw [depth] at shallow
    rw [quotations] at paired
    rw [numerals] at inRange
    refine ⟨⟨by omega, ?_, ?_⟩, ⟨by omega, ?_, ?_⟩⟩
    · exact fun q hq => paired q (List.mem_append_left _ hq)
    · exact fun n hn => inRange n (List.mem_append_left _ hn)
    · exact fun q hq => paired q (List.mem_append_right _ hq)
    · exact fun n hn => inRange n (List.mem_append_right _ hn)
  · rintro ⟨ht, hu⟩
    refine ⟨?_, ?_, ?_⟩
    · have first := ht.shallow
      have second := hu.shallow
      rw [depth]
      omega
    · rw [quotations]
      exact List.forall_mem_append.mpr ⟨ht.paired, hu.paired⟩
    · rw [numerals]
      exact List.forall_mem_append.mpr ⟨ht.inRange, hu.inRange⟩

end Tree

/-! ## Quotations spelled -/

theorem exists_hexLetter {d : Fin 16} {letter : Char} (h : IsHexLetter d letter) :
    ∃ x : HexLetter, x.digit = d ∧ x.char = letter := by
  rcases h with small | capital
  · exact ⟨⟨d, false⟩, rfl, small.symm⟩
  · exact ⟨⟨d, true⟩, rfl, capital.symm⟩

theorem HexLetter.isHexLetter (x : HexLetter) : IsHexLetter x.digit x.char := by
  obtain ⟨d, capital⟩ := x
  cases capital
  · exact Or.inl rfl
  · exact Or.inr rfl

theorem exists_glyph_of_spellsCode {n : Nat} {cs : List Char} (h : SpellsCode n cs) :
    ∃ g : Glyph, g.text = '\\' :: 'u' :: cs ∧ g.code? = some n := by
  obtain ⟨ha, hb, hc, hd⟩ := h
  obtain ⟨a, rfl, rfl⟩ := exists_hexLetter ha
  obtain ⟨b, rfl, rfl⟩ := exists_hexLetter hb
  obtain ⟨c, rfl, rfl⟩ := exists_hexLetter hc
  obtain ⟨d, rfl, rfl⟩ := exists_hexLetter hd
  exact ⟨.code a b c d, rfl, rfl⟩

theorem spellsCode_of_code? {g : Glyph} {n : Nat} (h : g.code? = some n) :
    ∃ cs, g.text = '\\' :: 'u' :: cs ∧ SpellsCode n cs := by
  cases g with
  | raw => cases h
  | short => cases h
  | code a b c d =>
    cases h
    exact ⟨_, rfl, .group a.isHexLetter b.isHexLetter c.isHexLetter d.isHexLetter⟩

theorem code?_of_any {g : Glyph} {p : Nat → Bool} (h : g.code?.any p = true) :
    ∃ n, g.code? = some n ∧ p n = true := by
  cases code : g.code? with
  | none => simp [code] at h
  | some n =>
    refine ⟨n, rfl, ?_⟩
    simpa [code] using h

theorem not_surrogate_toNat (c : Char) :
    isHighSurrogate c.toNat = false ∧ isLowSurrogate c.toNat = false := by
  have range := Quoted.toNat_range c
  constructor
  · simp only [isHighSurrogate, Bool.and_eq_false_iff, decide_eq_false_iff_not]
    omega
  · simp only [isLowSurrogate, Bool.and_eq_false_iff, decide_eq_false_iff_not]
    omega

theorem surrogates_of_large {c : Char} (large : 0x10000 ≤ c.toNat) :
    isHighSurrogate (0xD800 + (c.toNat - 0x10000) / 0x400) = true ∧
      isLowSurrogate (0xDC00 + (c.toNat - 0x10000) % 0x400) = true := by
  have range := Quoted.toNat_range c
  constructor
  · simp only [isHighSurrogate, Bool.and_eq_true, decide_eq_true_eq]
    omega
  · simp only [isLowSurrogate, Bool.and_eq_true, decide_eq_true_eq]
    omega

theorem exists_quotation_of_spellsCharacters {text cs : List Char}
    (h : SpellsCharacters text cs) : ∃ q : Quotation, q.flatMap Glyph.text = cs ∧ Paired q := by
  induction h with
  | nil => exact ⟨[], rfl, .nil⟩
  | @cons c rest first more head _ ih =>
    obtain ⟨q, rfl, paired⟩ := ih
    cases head with
    | raw printable notQuote notBackslash =>
      have plain : isPlain c = true := by simp [isPlain, printable, notQuote, notBackslash]
      exact ⟨.raw c plain :: q, rfl, .other rfl rfl paired⟩
    | @short letter _ known => exact ⟨.short (letter, c) known :: q, rfl, .other rfl rfl paired⟩
    | code h =>
      obtain ⟨g, text, code⟩ := exists_glyph_of_spellsCode h
      obtain ⟨notHigh, notLow⟩ := not_surrogate_toNat c
      refine ⟨g :: q, by rw [List.flatMap_cons, text], .other ?_ ?_ paired⟩
      · rw [Glyph.isHigh, code, Option.any_some, notHigh]
      · rw [Glyph.isLow, code, Option.any_some, notLow]
    | @pair _ high low large hhigh hlow =>
      obtain ⟨g, text, code⟩ := exists_glyph_of_spellsCode hhigh
      obtain ⟨g', text', code'⟩ := exists_glyph_of_spellsCode hlow
      obtain ⟨isHigh, isLow⟩ := surrogates_of_large large
      refine ⟨g :: g' :: q, ?_, .pair ?_ ?_ paired⟩
      · rw [List.flatMap_cons, List.flatMap_cons, text, text', List.append_assoc]
      · rw [Glyph.isHigh, code, Option.any_some, isHigh]
      · rw [Glyph.isLow, code', Option.any_some, isLow]

theorem exists_spellsCharacter_of_glyph {g : Glyph} (notHigh : g.isHigh = false)
    (notLow : g.isLow = false) : ∃ c, SpellsCharacter c g.text := by
  cases code : g.code? with
  | some n =>
    obtain ⟨cs, text, spelled⟩ := spellsCode_of_code? code
    rw [text]
    refine ⟨Char.ofNat n, spellsCharacter_of_code spelled ?_ ?_⟩
    · simpa [Glyph.isLow, code] using notLow
    · simpa [Glyph.isHigh, code] using notHigh
  | none =>
    cases g with
    | raw c plain =>
      simp only [isPlain, Bool.and_eq_true, decide_eq_true_eq, bne_iff_ne] at plain
      exact ⟨c, .raw plain.1.1 plain.1.2 plain.2⟩
    | short e known => exact ⟨e.2, .short known⟩
    | code => cases code

theorem exists_spellsCharacters_of_paired {q : Quotation} (h : Paired q) :
    ∃ text, SpellsCharacters text (q.flatMap Glyph.text) := by
  induction h with
  | nil => exact ⟨[], .nil⟩
  | other notHigh notLow _ ih =>
    obtain ⟨text, spelled⟩ := ih
    obtain ⟨c, first⟩ := exists_spellsCharacter_of_glyph notHigh notLow
    exact ⟨c :: text, .cons first spelled⟩
  | @pair high low rest hhigh hlow _ ih =>
    obtain ⟨text, spelled⟩ := ih
    obtain ⟨n, code, high'⟩ := code?_of_any hhigh
    obtain ⟨m, code', low'⟩ := code?_of_any hlow
    obtain ⟨cs, written, first⟩ := spellsCode_of_code? code
    obtain ⟨cs', written', second⟩ := spellsCode_of_code? code'
    have both := spellsCharacter_of_pair first second high' low'
    rw [← written, ← written'] at both
    refine ⟨surrogatePair n m :: text, ?_⟩
    rw [List.flatMap_cons, List.flatMap_cons, ← List.append_assoc]
    exact .cons both spelled

theorem exists_quotation_of_spellsText {t : String} {cs : List Char} (h : SpellsText t cs) :
    ∃ q : Quotation, q.text = cs ∧ Paired q := by
  obtain ⟨inner, spelled, rfl⟩ := h
  obtain ⟨q, rfl, paired⟩ := exists_quotation_of_spellsCharacters spelled
  exact ⟨q, rfl, paired⟩

theorem exists_spellsText_of_paired {q : Quotation} (h : Paired q) :
    ∃ t : String, SpellsText t q.text := by
  obtain ⟨text, spelled⟩ := exists_spellsCharacters_of_paired h
  refine ⟨String.ofList text, _, ?_, rfl⟩
  rwa [String.toList_ofList]

/-! ## Trees of spellings -/

def Value.isObject : Value → Bool
  | .object _ => true
  | _ => false

def Phrase.kind : Phrase → Kind
  | .value _ => .value
  | .item _ => .item
  | .items _ => .items
  | .member _ _ => .member
  | .members _ => .members

def Phrase.isObject : Phrase → Bool
  | .value v => v.isObject
  | .item v => v.isObject
  | _ => false

variable {room : Nat}

theorem exists_tree_of_spells {p : Phrase} {cs : List Char} (h : Spells room p cs) :
    ∃ t : Tree p.kind, t.text = cs ∧ t.Within room ∧ t.isObject = p.isObject := by
  induction h with
  | null => exact ⟨.null, rfl, Tree.within_leaf rfl rfl rfl, rfl⟩
  | true => exact ⟨.true, rfl, Tree.within_leaf rfl rfl rfl, rfl⟩
  | false => exact ⟨.false, rfl, Tree.within_leaf rfl rfl rfl, rfl⟩
  | @number room n x denoted =>
    refine ⟨.number n, rfl, ⟨Nat.zero_le _, List.forall_mem_nil _, ?_⟩, rfl⟩
    exact List.forall_mem_singleton.mpr (by rw [denoted]; rfl)
  | text room spelled =>
    obtain ⟨q, rfl, paired⟩ := exists_quotation_of_spellsText spelled
    refine ⟨.quotation q, rfl, ⟨Nat.zero_le _, ?_, List.forall_mem_nil _⟩, rfl⟩
    exact List.forall_mem_singleton.mpr paired
  | noItems room gap =>
    exact ⟨.noItems ⟨_, gap⟩, rfl,
      ⟨Nat.le_add_left 1 room, List.forall_mem_nil _, List.forall_mem_nil _⟩, rfl⟩
  | list _ ih =>
    obtain ⟨t, rfl, within, -⟩ := ih
    exact ⟨.list t, rfl, ⟨Nat.succ_le_succ within.shallow, within.paired, within.inRange⟩, rfl⟩
  | noMembers room gap =>
    exact ⟨.noMembers ⟨_, gap⟩, rfl,
      ⟨Nat.le_add_left 1 room, List.forall_mem_nil _, List.forall_mem_nil _⟩, rfl⟩
  | object _ ih =>
    obtain ⟨t, rfl, within, -⟩ := ih
    exact ⟨.object t, rfl, ⟨Nat.succ_le_succ within.shallow, within.paired, within.inRange⟩, rfl⟩
  | item hbefore _ hafter ih =>
    obtain ⟨t, rfl, within, object⟩ := ih
    exact ⟨.item ⟨_, hbefore⟩ t ⟨_, hafter⟩, rfl,
      ⟨within.shallow, within.paired, within.inRange⟩, object⟩
  | lastItem _ ih =>
    obtain ⟨t, rfl, within, -⟩ := ih
    exact ⟨.lastItem t, rfl, ⟨within.shallow, within.paired, within.inRange⟩, rfl⟩
  | moreItems _ _ first later =>
    obtain ⟨t, rfl, within, -⟩ := first
    obtain ⟨u, rfl, within', -⟩ := later
    exact ⟨.moreItems t u, rfl, (Tree.within_both_iff rfl rfl rfl).mpr ⟨within, within'⟩, rfl⟩
  | member hbefore hkey hafter _ ih =>
    obtain ⟨t, rfl, within, -⟩ := ih
    obtain ⟨q, rfl, paired⟩ := exists_quotation_of_spellsText hkey
    refine ⟨.member ⟨_, hbefore⟩ q ⟨_, hafter⟩ t, rfl, ⟨within.shallow, ?_, within.inRange⟩, rfl⟩
    exact List.forall_mem_cons.mpr ⟨paired, within.paired⟩
  | lastMember _ ih =>
    obtain ⟨t, rfl, within, -⟩ := ih
    exact ⟨.lastMember t, rfl, ⟨within.shallow, within.paired, within.inRange⟩, rfl⟩
  | moreMembers _ _ first later =>
    obtain ⟨t, rfl, within, -⟩ := first
    obtain ⟨u, rfl, within', -⟩ := later
    exact ⟨.moreMembers t u, rfl, (Tree.within_both_iff rfl rfl rfl).mpr ⟨within, within'⟩, rfl⟩

/-- What a tree within the limits spells: a phrase of its kind. -/
def Spelled (room : Nat) : {k : Kind} → Tree k → Prop
  | .value, t => ∃ v, Spells room (.value v) t.text ∧ v.isObject = t.isObject
  | .item, t => ∃ v, Spells room (.item v) t.text ∧ v.isObject = t.isObject
  | .items, t => ∃ vs, Spells room (.items vs) t.text
  | .member, t => ∃ name v, Spells room (.member name v) t.text
  | .members, t => ∃ ms, Spells room (.members ms) t.text

theorem spelled_of_within {k : Kind} {t : Tree k} (h : t.Within room) : Spelled room t := by
  induction t generalizing room with
  | null => exact ⟨_, .null room, rfl⟩
  | true => exact ⟨_, .true room, rfl⟩
  | false => exact ⟨_, .false room, rfl⟩
  | number n =>
    obtain ⟨x, denoted⟩ := Option.isSome_iff_exists.mp (h.inRange n List.mem_cons_self)
    exact ⟨_, .number room denoted, rfl⟩
  | quotation q =>
    obtain ⟨t, spelled⟩ := exists_spellsText_of_paired (h.paired q List.mem_cons_self)
    exact ⟨_, .text room spelled, rfl⟩
  | noItems gap =>
    obtain ⟨inner, rfl⟩ := Nat.exists_eq_add_of_le' h.shallow
    exact ⟨_, .noItems inner gap.property, rfl⟩
  | list items ih =>
    have shallow : items.depth + 1 ≤ room := h.shallow
    obtain ⟨inner, rfl⟩ := Nat.exists_eq_add_of_le' (Nat.le_of_add_left_le shallow)
    obtain ⟨vs, spelled⟩ := ih ⟨Nat.le_of_succ_le_succ shallow, h.paired, h.inRange⟩
    exact ⟨_, .list spelled, rfl⟩
  | noMembers gap =>
    obtain ⟨inner, rfl⟩ := Nat.exists_eq_add_of_le' h.shallow
    exact ⟨_, .noMembers inner gap.property, rfl⟩
  | object members ih =>
    have shallow : members.depth + 1 ≤ room := h.shallow
    obtain ⟨inner, rfl⟩ := Nat.exists_eq_add_of_le' (Nat.le_of_add_left_le shallow)
    obtain ⟨ms, spelled⟩ := ih ⟨Nat.le_of_succ_le_succ shallow, h.paired, h.inRange⟩
    exact ⟨_, .object spelled, rfl⟩
  | item before value after ih =>
    obtain ⟨v, spelled, object⟩ := ih ⟨h.shallow, h.paired, h.inRange⟩
    exact ⟨v, .item before.property spelled after.property, object⟩
  | lastItem item ih =>
    obtain ⟨v, spelled, -⟩ := ih ⟨h.shallow, h.paired, h.inRange⟩
    exact ⟨_, .lastItem spelled⟩
  | moreItems item later first rest =>
    obtain ⟨within, within'⟩ := (Tree.within_both_iff rfl rfl rfl).mp h
    obtain ⟨v, spelled, -⟩ := first within
    obtain ⟨vs, spelled'⟩ := rest within'
    exact ⟨_, .moreItems spelled spelled'⟩
  | member before key after value ih =>
    obtain ⟨paired, others⟩ := List.forall_mem_cons.mp h.paired
    obtain ⟨v, spelled, -⟩ := ih ⟨h.shallow, others, h.inRange⟩
    obtain ⟨name, spelledKey⟩ := exists_spellsText_of_paired paired
    exact ⟨name, v, .member before.property spelledKey after.property spelled⟩
  | lastMember member ih =>
    obtain ⟨name, v, spelled⟩ := ih ⟨h.shallow, h.paired, h.inRange⟩
    exact ⟨_, .lastMember spelled⟩
  | moreMembers member later first rest =>
    obtain ⟨within, within'⟩ := (Tree.within_both_iff rfl rfl rfl).mp h
    obtain ⟨name, v, spelled⟩ := first within
    obtain ⟨ms, spelled'⟩ := rest within'
    exact ⟨_, .moreMembers spelled spelled'⟩

/-- **The trees within the limits are those of the texts that are read as a value.** -/
theorem exists_tree_iff_read {text : List Char} {object : Bool} :
    (∃ t : Tree .item, t.text = text ∧ t.Within State.maxDepth ∧ t.isObject = object) ↔
      ∃ v, read text = .ok v ∧ v.isObject = object := by
  constructor
  · rintro ⟨t, rfl, within, rfl⟩
    obtain ⟨v, spelled, same⟩ := spelled_of_within within
    exact ⟨v, read_eq_ok_iff_spells.mpr spelled, same⟩
  · rintro ⟨v, read, rfl⟩
    exact exists_tree_of_spells (read_eq_ok_iff_spells.mp read)

end LatencyLog.Json
