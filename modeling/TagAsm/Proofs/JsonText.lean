import Mathlib.Data.List.TakeDrop
import TagAsm.Json.Parse
import TagAsm.Json.Render

/-!
# JSON texts that are read back

The text of a value is read as that value. Numbers need care at their end, since a number goes on for as long as it can: what follows it
must not look like a part of it. Strings need care in their middle, where characters are escaped. Everything else is told apart by its
first character.
-/

namespace TagAsm.Json

open List Option

/-! ## Numbers -/

/-- What a number cannot go on with. -/
def Closes (rest : List Char) : Prop := ∀ c ∈ rest.head?, isDigit c = false ∧ c ≠ '.' ∧ c ≠ 'e' ∧ c ≠ 'E'

variable {c : Char} {n : Nat}

theorem isDigit_of_mem_toDigits (h : c ∈ Nat.toDigits 10 n) : isDigit c = true := by
  have hd : c.isDigit = true := Nat.isDigit_of_mem_toDigits (by decide) (by decide) h
  exact hd

theorem digitsValue_toDigits (n : Nat) : digitsValue (Nat.toDigits 10 n) = n := by
  conv_rhs => rw [← @Nat.ofDigitChars_ten_toDigits n, Nat.ofDigitChars_eq_foldl]
  rfl

/-- A number but zero does not start with a zero. -/
theorem head?_toDigits_ne_zero (h : n ≠ 0) : (Nat.toDigits 10 n).head? ≠ some '0' := by
  induction n using Nat.strongRecOn with
  | ind n ih =>
    rw [Nat.toDigits_eq_if (by decide)]
    split
    · rename_i hlt
      have hall : ∀ digit < 10, digit ≠ 0 → digit.digitChar ≠ '0' := by decide
      exact fun heq => hall n hlt h (some.inj heq)
    · rw [head?_append, or_of_isSome (by simp [isSome_head?, Nat.toDigits_ne_nil])]
      exact ih (n / 10) (by omega) (by omega)

variable {rest : List Char}

/-- Digits are read up to what cannot go on. -/
theorem span_toDigits (n : Nat) (h : Closes rest) : (Nat.toDigits 10 n ++ rest).span isDigit = (Nat.toDigits 10 n, rest) := by
  have hd : ∀ c ∈ Nat.toDigits 10 n, isDigit c = true := fun c hc => isDigit_of_mem_toDigits hc
  rw [span_eq_takeWhile_dropWhile, takeWhile_append_of_pos hd, dropWhile_append_of_pos hd]
  cases rest with
  | nil => simp
  | cons c tail =>
    have hc : isDigit c = false := (h c (by simp)).1
    simp [hc]

theorem readWhole_toDigits (n : Nat) (h : Closes rest) : readWhole (Nat.toDigits 10 n ++ rest) = some (Nat.toDigits 10 n, rest) := by
  by_cases hn : n = 0
  · subst hn
    rfl
  · have hh := head?_toDigits_ne_zero hn
    have hs := span_toDigits n h
    cases hd : Nat.toDigits 10 n with
    | nil => exact absurd hd Nat.toDigits_ne_nil
    | cons digit digits =>
      rw [hd] at hh hs
      have hdg : digit ≠ '0' := fun heq => hh (by rw [heq]; rfl)
      unfold readWhole
      split
      · rename_i tail heq
        exact absurd (cons.inj heq).1 hdg
      · rw [hs]

theorem readFraction_of_closes (h : Closes rest) : readFraction rest = some ([], rest) := by
  cases rest with
  | nil => rfl
  | cons c tail =>
    have hc : c ≠ '.' := (h c (by simp)).2.1
    unfold readFraction
    split
    · rename_i heq
      exact absurd (cons.inj heq).1 hc
    · rfl

theorem readExponent_of_closes (h : Closes rest) : readExponent rest = some ([], rest) := by
  cases rest with
  | nil => rfl
  | cons c tail =>
    obtain ⟨-, -, hl, hu⟩ := h c (by simp)
    simp [readExponent, hl, hu]

theorem readUnsigned_toDigits (neg : Bool) (n : Nat) (hn : neg = true → n ≠ 0) (h : Closes rest) :
    readUnsigned neg (Nat.toDigits 10 n ++ rest) = some (.integer (if neg then -(n : Int) else n), rest) := by
  unfold readUnsigned
  simp only [readWhole_toDigits n h, readFraction_of_closes h, readExponent_of_closes h, digitsValue_toDigits, bind_eq_bind, bind_some]
  cases neg with
  | false => rfl
  | true => simp [hn rfl]

/-- The text of a number starts with a digit. -/
theorem exists_digit_cons (n : Nat) : ∃ digit digits, Nat.toDigits 10 n = digit :: digits ∧ isDigit digit = true := by
  cases hd : Nat.toDigits 10 n with
  | nil => exact absurd hd Nat.toDigits_ne_nil
  | cons digit digits => exact ⟨digit, digits, rfl, isDigit_of_mem_toDigits (by rw [hd]; exact mem_cons_self)⟩

theorem characters_ofNat (n : Nat) : characters (.integer (.ofNat n)) = Nat.toDigits 10 n := Nat.toList_repr

theorem characters_negSucc (n : Nat) : characters (.integer (.negSucc n)) = '-' :: Nat.toDigits 10 (n + 1) := by
  have ht : characters (.integer (.negSucc n)) = ("-" ++ Nat.repr (n + 1)).toList := rfl
  rw [ht, String.toList_append, Nat.toList_repr]
  rfl

/-- The text of an integer is read as that integer. -/
theorem readNumber_integer (val : Int) (h : Closes rest) :
    readNumber (characters (.integer val) ++ rest) = some (.integer val, rest) := by
  cases val with
  | ofNat n =>
    have hr := readUnsigned_toDigits false n (fun hn => absurd hn (by decide)) h
    obtain ⟨digit, digits, hds, hd⟩ := exists_digit_cons n
    rw [characters_ofNat, hds]
    rw [hds] at hr
    unfold readNumber
    split
    · rename_i heq
      rw [(cons.inj heq).1] at hd
      exact absurd hd (by decide)
    · exact hr
  | negSucc n =>
    rw [characters_negSucc, cons_append]
    exact readUnsigned_toDigits true (n + 1) (fun _ => Nat.succ_ne_zero n) h

/-! ## Strings -/

theorem hexValue?_hexDigit {val : Nat} (h : val < 16) : hexValue? (hexDigit val) = some val := by
  have hall : ∀ val < 16, hexValue? (hexDigit val) = some val := by decide
  exact hall val h

/-- A letter behind a backslash stands for the character that it is written for. -/
theorem simpleEscape?_of_shortEscape? {letter : Char} (h : shortEscape? c = some letter) :
    simpleEscape? letter = some c ∧ letter ≠ 'u' := by
  unfold shortEscape? at h
  split at h
  all_goals cases h
  all_goals exact ⟨rfl, by decide⟩

/-- A character without a short escape is neither a quote nor a backslash. -/
theorem ne_of_shortEscape?_eq_none (h : shortEscape? c = none) : c ≠ '\x22' ∧ c ≠ '\\' := by
  constructor
  · rintro rfl
    cases h
  · rintro rfl
    cases h

/-- A control character is written as its code. -/
theorem unit?_hexDigit (h : c.toNat < 32) : unit? '0' '0' (hexDigit (c.toNat / 16)) (hexDigit (c.toNat % 16)) = some c.toNat := by
  have hz : hexValue? '0' = some 0 := rfl
  have hh := hexValue?_hexDigit (show c.toNat / 16 < 16 by omega)
  have hlow := hexValue?_hexDigit (show c.toNat % 16 < 16 by omega)
  have hsum : ((0 * 16 + 0) * 16 + c.toNat / 16) * 16 + c.toNat % 16 = c.toNat := by omega
  simp only [unit?, hz, hh, hlow, Option.bind_eq_bind, Option.bind_some, Option.pure_def, hsum]

theorem readQuoted_letter {letter : Char} (hl : simpleEscape? letter = some c) (hu : letter ≠ 'u') (spelled : Spelled)
    (rest : List Char) : readQuoted spelled ('\\' :: letter :: rest) = readQuoted (spelled.addChar c) rest := by
  rw [readQuoted.eq_def]
  split
  · rename_i heq
    cases heq
  · rename_i heq
    cases heq
  · rename_i heq
    exact absurd (cons.inj (cons.inj heq).2).1 hu
  · rename_i heq
    obtain ⟨rfl, rfl⟩ := cons.inj (cons.inj heq).2
    rw [hl]
  · rename_i ho heq
    cases heq
    exact absurd rfl (ho letter rest rfl)

theorem readQuoted_escape (c : Char) (read rest : List Char) :
    readQuoted (.whole read) (escape c ++ rest) = readQuoted (.whole (c :: read)) rest := by
  unfold escape
  cases hs : shortEscape? c with
  | some letter =>
    obtain ⟨hl, hu⟩ := simpleEscape?_of_shortEscape? hs
    exact readQuoted_letter hl hu (.whole read) rest
  | none =>
    obtain ⟨hq, hb⟩ := ne_of_shortEscape?_eq_none hs
    dsimp only
    split
    -- The code of a control character is no half of a pair, so it stands for a character by itself.
    · rename_i hc
      simp only [cons_append, nil_append]
      rw [readQuoted, unit?_hexDigit hc]
      have hh : isHighUnit c.toNat = false := by
        simp [isHighUnit]
        omega
      have hlow : isLowUnit c.toNat = false := by
        simp [isLowUnit]
        omega
      simp [Spelled.addUnit, hh, hlow]
    · rename_i hp
      rw [singleton_append, readQuoted.eq_def]
      split
      · rename_i heq
        cases heq
      · rename_i heq
        exact absurd (cons.inj heq).1 hq
      · rename_i heq
        exact absurd (cons.inj heq).1 hb
      · rename_i heq
        exact absurd (cons.inj heq).1 hb
      · rename_i heq
        cases heq
        simp [hp, hb, Spelled.addChar]

/-- A string is read up to its closing quote. -/
theorem readQuoted_flatMap_escape (val : List Char) (read rest : List Char) :
    readQuoted (.whole read) (val.flatMap escape ++ '\x22' :: rest) = some (some (String.ofList (read.reverse ++ val)), rest) := by
  induction val generalizing read with
  | nil =>
    rw [append_nil]
    rfl
  | cons c val ih =>
    rw [flatMap_cons, append_assoc, readQuoted_escape, ih, reverse_cons, append_assoc, singleton_append]

theorem quote_append (val : String) (rest : List Char) :
    quote (some val) ++ rest = '\x22' :: (val.toList.flatMap escape ++ '\x22' :: rest) := by
  simp [quote]

/-- The text of a string is read as that string. -/
theorem readString_quote (val : String) (rest : List Char) : readString (quote (some val) ++ rest) = some (some val, rest) := by
  rw [quote_append, readString, readQuoted_flatMap_escape, reverse_nil, nil_append, String.ofList_toList]

/-! ## Values -/

/-- A value whose text tells all of it: its numbers are integers, and its strings are sequences of characters. -/
inductive Plain : Json → Prop where
  | null : Plain .null
  | bool (val : Bool) : Plain (.bool val)
  | integer (val : Int) : Plain (.integer val)
  | text (val : String) : Plain (.text val)
  | array {items : List Json} (hitems : ∀ item ∈ items, Plain item) : Plain (.array items)
  | object {members : List (Option String × Json)} (hkeys : ∀ member ∈ members, member.1.isSome = true)
      (hvalues : ∀ member ∈ members, Plain member.2) : Plain (.object members)

/-- What a value, or a member of an object, starts with. -/
def Starts (text : List Char) : Prop := ∃ c rest, text = c :: rest ∧ isSpace c = false ∧ c ≠ ']' ∧ c ≠ '\x7d'

theorem Starts.append {text : List Char} (h : Starts text) (rest : List Char) : Starts (text ++ rest) := by
  obtain ⟨c, tail, rfl, hc⟩ := h
  exact ⟨c, tail ++ rest, rfl, hc⟩

theorem Starts.skipSpace {text : List Char} (h : Starts text) : skipSpace text = text := by
  obtain ⟨c, tail, rfl, hs, -⟩ := h
  simp [Json.skipSpace, hs]

theorem starts_quote (val : Option String) : Starts (quote val) := by
  cases val with
  | none => exact ⟨'\x22', _, rfl, by decide⟩
  | some val => exact ⟨'\x22', _, rfl, by decide⟩

theorem starts_toDigits (n : Nat) : Starts (Nat.toDigits 10 n) := by
  obtain ⟨digit, digits, hds, hd⟩ := exists_digit_cons n
  have hne : ∀ c, isDigit c = false → digit ≠ c := by
    rintro c hc rfl
    rw [hc] at hd
    cases hd
  have hs : isSpace digit = false := by
    simp [isSpace, hne ' ' rfl, hne '\t' rfl, hne '\n' rfl, hne '\r' rfl]
  exact ⟨digit, digits, hds, hs, hne _ rfl, hne _ rfl⟩

theorem Plain.starts {json : Json} (h : json.Plain) : Starts (characters json) := by
  cases h with
  | null => exact ⟨'n', _, rfl, by decide⟩
  | bool val =>
    cases val with
    | false => exact ⟨'f', _, rfl, by decide⟩
    | true => exact ⟨'t', _, rfl, by decide⟩
  | integer val =>
    cases val with
    | ofNat n =>
      rw [characters_ofNat]
      exact starts_toDigits n
    | negSucc n =>
      rw [characters_negSucc]
      exact ⟨'-', _, rfl, by decide⟩
  | text val => exact starts_quote (some val)
  | array hi => exact ⟨'[', _, rfl, by decide⟩
  | object hk hv => exact ⟨'\x7b', _, rfl, by decide⟩

/-- With as many steps as it has characters, the text of the value is read as that value, whatever follows. -/
def ReadsBack (json : Json) : Prop :=
  ∀ fuel rest, (characters json).length ≤ fuel → Closes rest → readValue fuel (characters json ++ rest) = some (json, rest)

theorem closes_cons (h : isDigit c = false ∧ c ≠ '.' ∧ c ≠ 'e' ∧ c ≠ 'E') (rest : List Char) : Closes (c :: rest) := by
  intro other ho
  obtain rfl : c = other := some.inj ho
  exact h

theorem skipSpace_cons (h : isSpace c = false) (rest : List Char) : skipSpace (c :: rest) = c :: rest := by
  simp [skipSpace, h]

theorem itemCharacters_cons_cons (item next : Json) (items : List Json) :
    itemCharacters (item :: next :: items) = characters item ++ ',' :: itemCharacters (next :: items) := rfl

variable {items : List Json}

theorem starts_itemCharacters (hne : items ≠ []) (h : ∀ item ∈ items, item.Plain) : Starts (itemCharacters items) := by
  cases items with
  | nil => exact absurd rfl hne
  | cons item items =>
    have hi := (h item mem_cons_self).starts
    cases items with
    | nil => exact hi
    | cons next items =>
      exact hi.append _

variable {fuel : Nat}

/-- Items are read in order, up to the closing bracket. -/
theorem readItems_itemCharacters (hne : items ≠ []) (hpl : ∀ item ∈ items, item.Plain)
    (his : ∀ item ∈ items, ReadsBack item) (read : List Json) (hf : (itemCharacters items).length < fuel)
    (rest : List Char) :
    readItems fuel read (itemCharacters items ++ ']' :: rest) = some (.array (read.reverse ++ items), rest) := by
  induction items generalizing read fuel with
  | nil => exact absurd rfl hne
  | cons item items ih =>
    obtain ⟨steps, rfl⟩ : ∃ steps, fuel = steps + 1 := Nat.exists_eq_add_one.mpr (Nat.zero_lt_of_lt hf)
    have hi := his item mem_cons_self
    cases items with
    | nil =>
      have hr := hi steps (']' :: rest) (Nat.le_of_lt_succ hf) (closes_cons (by decide) rest)
      rw [readItems, itemCharacters, hr]
      simp only [skipSpace_cons (show isSpace ']' = false by decide), reverse_cons]
    | cons next items =>
      -- The comma leaves enough steps for the other items, however short this one is.
      rw [itemCharacters_cons_cons, length_append, length_cons] at hf
      have hr := hi steps (',' :: (itemCharacters (next :: items) ++ ']' :: rest)) (by omega) (closes_cons (by decide) _)
      have hp : ∀ other ∈ next :: items, other.Plain := fun other ho => hpl other (mem_cons_of_mem _ ho)
      have hs := (starts_itemCharacters (cons_ne_nil next items) hp).append (']' :: rest)
      have hrs := ih (cons_ne_nil next items) hp (fun other ho => his other (mem_cons_of_mem _ ho))
        (item :: read) (show (itemCharacters (next :: items)).length < steps by omega)
      rw [itemCharacters_cons_cons, append_assoc, cons_append, readItems, hr]
      simp only [skipSpace_cons (show isSpace ',' = false by decide), hs.skipSpace, hrs]
      rw [reverse_cons, append_assoc, singleton_append]

theorem memberCharacters_cons_cons (key : Option String) (val : Json) (next : Option String × Json)
    (members : List (Option String × Json)) :
    memberCharacters ((key, val) :: next :: members) =
      quote key ++ ':' :: (characters val ++ ',' :: memberCharacters (next :: members)) := rfl

variable {members : List (Option String × Json)}

theorem starts_memberCharacters (hne : members ≠ []) : Starts (memberCharacters members) := by
  cases members with
  | nil => exact absurd rfl hne
  | cons member members =>
    cases members with
    | nil | cons => exact (starts_quote member.1).append _

/-- Members are read in order, up to the closing brace. -/
theorem readMembers_memberCharacters (hne : members ≠ []) (hk : ∀ member ∈ members, member.1.isSome = true)
    (hp : ∀ member ∈ members, member.2.Plain) (hvs : ∀ member ∈ members, ReadsBack member.2)
    (read : List (Option String × Json)) (hf : (memberCharacters members).length < fuel) (rest : List Char) :
    readMembers fuel read (memberCharacters members ++ '\x7d' :: rest) = some (.object (read.reverse ++ members), rest) := by
  induction members generalizing read fuel with
  | nil => exact absurd rfl hne
  | cons member members ih =>
    obtain ⟨steps, rfl⟩ : ∃ steps, fuel = steps + 1 := Nat.exists_eq_add_one.mpr (Nat.zero_lt_of_lt hf)
    obtain ⟨key, val⟩ := member
    obtain ⟨name, rfl⟩ : ∃ name, key = some name := isSome_iff_exists.mp (hk _ mem_cons_self)
    have hv : ReadsBack val := hvs _ mem_cons_self
    have hpv : Plain val := hp _ mem_cons_self
    cases members with
    | nil =>
      have ht : memberCharacters [(some name, val)] ++ '\x7d' :: rest =
          quote (some name) ++ ':' :: (characters val ++ '\x7d' :: rest) := by
        rw [memberCharacters, append_assoc, cons_append]
      have hr := hv steps ('\x7d' :: rest) (by
        rw [memberCharacters, length_append, length_cons] at hf
        omega) (closes_cons (by decide) rest)
      rw [ht, readMembers, readString_quote]
      simp only [skipSpace_cons (show isSpace ':' = false by decide), (hpv.starts.append _).skipSpace, hr,
        skipSpace_cons (show isSpace '\x7d' = false by decide), reverse_cons]
    | cons next members =>
      rw [memberCharacters_cons_cons] at hf
      simp only [length_append, length_cons] at hf
      have hr := hv steps (',' :: (memberCharacters (next :: members) ++ '\x7d' :: rest)) (by omega) (closes_cons (by decide) _)
      have hs := (starts_memberCharacters (cons_ne_nil next members)).append ('\x7d' :: rest)
      have hrs := ih (cons_ne_nil next members) (fun other ho => hk other (mem_cons_of_mem _ ho))
        (fun other ho => hp other (mem_cons_of_mem _ ho))
        (fun other ho => hvs other (mem_cons_of_mem _ ho)) ((some name, val) :: read)
        (show (memberCharacters (next :: members)).length < steps by omega)
      have ht : memberCharacters ((some name, val) :: next :: members) ++ '\x7d' :: rest =
          quote (some name) ++ ':' :: (characters val ++ ',' :: (memberCharacters (next :: members) ++ '\x7d' :: rest)) := by
        rw [memberCharacters_cons_cons]
        simp only [append_assoc, cons_append]
      rw [ht, readMembers, readString_quote]
      simp only [skipSpace_cons (show isSpace ':' = false by decide), (hpv.starts.append _).skipSpace, hr,
        skipSpace_cons (show isSpace ',' = false by decide), hs.skipSpace, hrs]
      rw [reverse_cons, append_assoc, singleton_append]

/-- What starts with a digit or a sign is read as a number. -/
theorem readValue_number (h : isDigit c = true ∨ c = '-') (fuel : Nat) (rest : List Char) :
    readValue (fuel + 1) (c :: rest) = readNumber (c :: rest) := by
  have hne : ∀ other, isDigit other = false → other ≠ '-' → c ≠ other := by
    rintro other hd hs rfl
    rcases h with h | h
    · rw [hd] at h
      cases h
    · exact hs h
  rw [readValue.eq_def]
  dsimp only
  split
  case h_7 => rfl
  all_goals
    rename_i heq
    exact absurd (cons.inj heq).1 (hne _ (by decide) (by decide))

theorem readValue_integer (val : Int) (fuel : Nat) (h : Closes rest) :
    readValue (fuel + 1) (characters (.integer val) ++ rest) = some (.integer val, rest) := by
  have hr := readNumber_integer val h
  cases val with
  | ofNat n =>
    obtain ⟨digit, digits, hds, hd⟩ := exists_digit_cons n
    rw [characters_ofNat, hds] at hr ⊢
    rw [← hr]
    exact readValue_number (.inl hd) fuel _
  | negSucc n =>
    rw [characters_negSucc] at hr ⊢
    rw [← hr]
    exact readValue_number (.inr rfl) fuel _

theorem readValue_array (hp : ∀ item ∈ items, item.Plain) (hi : ∀ item ∈ items, ReadsBack item)
    (hf : (itemCharacters items).length < fuel) (rest : List Char) :
    readValue (fuel + 1) (characters (.array items) ++ rest) = some (.array items, rest) := by
  have htx : characters (.array items) ++ rest = '[' :: (itemCharacters items ++ ']' :: rest) := by
    simp [characters]
  rw [htx, readValue]
  cases items with
  | nil => rfl
  | cons item items =>
    have hne := cons_ne_nil item items
    have hs := (starts_itemCharacters hne hp).append (']' :: rest)
    rw [hs.skipSpace]
    split
    -- no item starts with the bracket that would close the array
    · rename_i heq
      obtain ⟨c, tail, ht, -, hb, -⟩ := hs
      exact absurd (cons.inj (ht.symm.trans heq)).1 hb
    · exact readItems_itemCharacters hne hp hi [] hf rest

theorem readValue_object (hk : ∀ member ∈ members, member.1.isSome = true) (hp : ∀ member ∈ members, member.2.Plain)
    (hv : ∀ member ∈ members, ReadsBack member.2) (hf : (memberCharacters members).length < fuel) (rest : List Char) :
    readValue (fuel + 1) (characters (.object members) ++ rest) = some (.object members, rest) := by
  have htx : characters (.object members) ++ rest = '\x7b' :: (memberCharacters members ++ '\x7d' :: rest) := by
    simp [characters]
  rw [htx, readValue]
  cases members with
  | nil => rfl
  | cons member members =>
    have hne := cons_ne_nil member members
    have hs := (starts_memberCharacters hne).append ('\x7d' :: rest)
    rw [hs.skipSpace]
    split
    · rename_i heq
      obtain ⟨c, tail, ht, -, -, hb⟩ := hs
      exact absurd (cons.inj (ht.symm.trans heq)).1 hb
    · exact readMembers_memberCharacters hne hk hp hv [] hf rest

/-- The text of a plain value is read as that value. -/
theorem Plain.readsBack {json : Json} (h : json.Plain) : ReadsBack json := by
  induction h with
  | null =>
    rintro (_ | fuel) rest hf -
    · cases hf
    · rfl
  | bool val =>
    rintro (_ | fuel) rest hf -
    · cases val <;> cases hf
    · cases val <;> rfl
  | integer val =>
    intro fuel rest hf hr
    obtain ⟨c, tail, ht, -⟩ := (integer val).starts
    rw [ht, length_cons] at hf
    obtain ⟨steps, rfl⟩ := Nat.exists_eq_add_one.mpr (Nat.zero_lt_of_lt hf)
    exact readValue_integer val steps hr
  | text val =>
    rintro (_ | fuel) rest hf -
    · cases hf
    · have hrd := readString_quote val rest
      have ht : characters (.text val) ++ rest = '\x22' :: (val.toList.flatMap escape ++ '\x22' :: rest) := quote_append val rest
      rw [quote_append] at hrd
      rw [ht, readValue, hrd]
      rfl
  | @array items hi ih =>
    intro fuel rest hf hr
    have hl : (characters (.array items)).length = (itemCharacters items).length + 2 := by
      simp [characters]
    obtain ⟨steps, rfl⟩ : ∃ steps, fuel = steps + 1 := Nat.exists_eq_add_one.mpr (by omega)
    exact readValue_array hi ih (by omega) rest
  | @object members hk hv ih =>
    intro fuel rest hf hr
    have hl : (characters (.object members)).length = (memberCharacters members).length + 2 := by
      simp [characters]
    obtain ⟨steps, rfl⟩ : ∃ steps, fuel = steps + 1 := Nat.exists_eq_add_one.mpr (by omega)
    exact readValue_object hk hv ih (by omega) rest

/-- The document of a plain value holds that value. -/
theorem Plain.parse?_render {json : Json} (h : json.Plain) : parse? (render json) = some json := by
  unfold parse? render
  rw [String.toList_ofList]
  have hs : skipSpace (characters json) = characters json := h.starts.skipSpace
  have hr := h.readsBack (2 * (characters json).length + 2) [] (by omega) (by intro c hc; cases hc)
  rw [append_nil] at hr
  simp only [hs, hr]
  rfl

end TagAsm.Json
