import TagAsm.Proofs.Assembling

/-!
# Strings in data sections

An assembler reads a string between quotes byte by byte (`readString`): a backslash starts an escape, which is a letter, a quote, a
backslash, or up to three octal digits, and every other character stands for itself. What it reads are the bytes of the text that was
written, and there are as many of them as the code and the debug tables say.
-/

namespace TagAsm

open List

namespace Asm

/-! ## How strings are read -/

/-- The value of an octal digit. -/
def octalDigit? (c : Char) : Option Nat := if '0' ≤ c ∧ c ≤ '7' then some (c.toNat - 48) else none

/-- Reads at most so many more octal digits: the number, and what follows it. -/
def readOctal (val : Nat) : Nat → List Char → Nat × List Char
  | count + 1, c :: rest =>
    match octalDigit? c with
    | some digit => readOctal (8 * val + digit) count rest
    | none => (val, c :: rest)
  | _, rest => (val, rest)

/-- Reads what follows a backslash: the byte that is meant, and the rest. -/
def readEscape : List Char → Option (UInt8 × List Char)
  | [] => none
  | c :: rest =>
    if c = '\x22' then some (0x22, rest)
    else if c = '\\' then some (0x5c, rest)
    else if c = 'n' then some (0x0a, rest)
    else if c = 't' then some (0x09, rest)
    else (octalDigit? c).map fun digit => ((readOctal digit 2 rest).1.toUInt8, (readOctal digit 2 rest).2)

theorem length_readOctal_le (val count : Nat) (text : List Char) : (readOctal val count text).2.length ≤ text.length := by
  fun_induction readOctal val count text with
  | case1 val count c rest digit _ ih => exact Nat.le_succ_of_le ih
  | case2 | case3 => exact Nat.le_refl _

theorem length_lt_of_readEscape {text rest : List Char} {byte : UInt8} (h : readEscape text = some (byte, rest)) :
    rest.length < text.length := by
  cases text with
  | nil => cases h
  | cons c text =>
    have hl : ∀ {letter : UInt8}, some (letter, text) = some (byte, rest) → rest.length < text.length + 1 := by
      rintro _ ⟨⟩
      exact Nat.lt_succ_self _
    simp only [readEscape] at h
    split_ifs at h
    · exact hl h
    · exact hl h
    · exact hl h
    · exact hl h
    · obtain ⟨digit, -, hr⟩ := Option.map_eq_some_iff.mp h
      cases hr
      exact Nat.lt_succ_of_le (length_readOctal_le _ _ _)

/-- Reads a string up to the quote that ends it: its bytes, and what follows the quote. -/
def readString (text : List Char) : Option (List UInt8 × List Char) :=
  match text with
  | [] => none
  | c :: rest =>
    if c = '\x22' then some ([], rest)
    else if c = '\\' then
      match _h : readEscape rest with
      | some (byte, after) => (readString after).map fun res => (byte :: res.1, res.2)
      | none => none
    else (readString rest).map fun res => (String.utf8EncodeChar c ++ res.1, res.2)
termination_by text.length
decreasing_by
  · exact Nat.lt_succ_of_lt (length_lt_of_readEscape ‹_›)
  · exact Nat.lt_succ_self _

theorem readString_escape {text rest : List Char} {byte : UInt8} (h : readEscape text = some (byte, rest)) :
    readString ('\\' :: text) = (readString rest).map fun res => (byte :: res.1, res.2) := by
  rw [readString]
  split
  · rename_i hq
    exact absurd hq (by decide)
  · rw [if_pos rfl]
    split
    · rename_i heq
      cases h.symm.trans heq
      rfl
    · rename_i heq
      cases h.symm.trans heq

/-! ## How they are written -/

theorem octalDigit?_digitChar : ∀ digit < 8, octalDigit? (Nat.digitChar digit) = some digit := by decide

/-- Each byte is one printable character, or an escape of printable characters. -/
theorem printable_of_mem_escapeByte (byte : UInt8) : ∀ c ∈ escapeByte byte, ' ' ≤ c ∧ c ≤ '~' := by
  have hall : ∀ n < 256, (escapeByte n.toUInt8).all (fun c => ' ' ≤ c ∧ c ≤ '~') = true := by decide +kernel
  simpa using hall byte.toNat byte.toNat_lt

/-- A character that is written as it is is no quote and no backslash, and stands for its byte. -/
theorem plain_of_printable (byte : UInt8) (h : byte ≠ 0x22 ∧ byte ≠ 0x5c ∧ 0x20 ≤ byte ∧ byte ≤ 0x7e) :
    Char.ofUInt8 byte ≠ '\x22' ∧ Char.ofUInt8 byte ≠ '\\' ∧ String.utf8EncodeChar (Char.ofUInt8 byte) = [byte] := by
  have hall : ∀ n < 256, n.toUInt8 ≠ 0x22 ∧ n.toUInt8 ≠ 0x5c ∧ 0x20 ≤ n.toUInt8 ∧ n.toUInt8 ≤ 0x7e →
      Char.ofUInt8 n.toUInt8 ≠ '\x22' ∧ Char.ofUInt8 n.toUInt8 ≠ '\\' ∧
        String.utf8EncodeChar (Char.ofUInt8 n.toUInt8) = [n.toUInt8] := by decide +kernel
  have hb := hall byte.toNat byte.toNat_lt
  rw [Nat.toUInt8_eq, UInt8.ofNat_toNat] at hb
  exact hb h

/-- Three octal digits are read as the byte that they were made from, whatever follows. -/
theorem readEscape_octal (byte : UInt8) (rest : List Char) :
    readEscape (Nat.digitChar (byte.toNat / 64) :: Nat.digitChar (byte.toNat / 8 % 8) :: Nat.digitChar (byte.toNat % 8) :: rest) =
      some (byte, rest) := by
  have hlt := byte.toNat_lt
  have hf := octalDigit?_digitChar (byte.toNat / 64) (by omega)
  have hl : ∀ digit < 8, Nat.digitChar digit ≠ '\x22' ∧ Nat.digitChar digit ≠ '\\' ∧ Nat.digitChar digit ≠ 'n' ∧
      Nat.digitChar digit ≠ 't' := by decide
  obtain ⟨hq, hs, hn, ht⟩ := hl (byte.toNat / 64) (by omega)
  have hv : 8 * (8 * (byte.toNat / 64) + byte.toNat / 8 % 8) + byte.toNat % 8 = byte.toNat := by omega
  simp only [readEscape, readOctal, hq, hs, hn, ht, hf, octalDigit?_digitChar (byte.toNat / 8 % 8) (by omega),
    octalDigit?_digitChar (byte.toNat % 8) (by omega), hv, if_false, Option.map_some, Nat.toUInt8_eq, UInt8.ofNat_toNat]

theorem readString_escapeByte (byte : UInt8) (rest : List Char) :
    readString (escapeByte byte ++ rest) = (readString rest).map fun res => (byte :: res.1, res.2) := by
  unfold escapeByte
  split_ifs with hq hs hn ht hr
  · exact readString_escape (hq ▸ rfl)
  · exact readString_escape (hs ▸ rfl)
  · exact readString_escape (hn ▸ rfl)
  · exact readString_escape (ht ▸ rfl)
  · obtain ⟨hq, hs, hb⟩ := plain_of_printable byte ⟨hq, hs, hr⟩
    simp [readString, hq, hs, hb]
  · exact readString_escape (readEscape_octal byte rest)

theorem readString_escapeBytes (bytes : List UInt8) (rest : List Char) :
    readString (bytes.flatMap escapeByte ++ '\x22' :: rest) = some (bytes, rest) := by
  induction bytes with
  | nil => simp [readString]
  | cons byte bytes ih => rw [flatMap_cons, append_assoc, readString_escapeByte, ih, Option.map_some]

theorem length_toList_loop (bytes : ByteArray) (start : Nat) (found : List UInt8) :
    (ByteArray.toList.loop bytes start found).length = found.length + (bytes.size - start) := by
  fun_induction ByteArray.toList.loop bytes start found with
  | case1 start found hlt ih =>
    rw [ih, length_cons]
    omega
  | case2 start found hge =>
    rw [length_reverse]
    omega

theorem length_bytes (text : String) : text.toUTF8.toList.length = text.utf8ByteSize := by
  rw [ByteArray.toList, length_toList_loop]
  exact Nat.zero_add _

end Asm

namespace Select

open Asm

/-- The label of a string is that of its contents, also once there are more strings. -/
theorem infix_rodata_of_string {syms : SymbolTable} {text : String} {em : Emission}
    (h : (syms.string text).2.strings <+: em.kept.symbols.strings) (debug : Bool) :
    [.label (syms.string text).1, .data (.ascii text)] <:+: (em.toUnit debug).rodata := by
  obtain ⟨id, hid, hsy⟩ : ∃ id, (syms.string text).2.strings[id]? = some text ∧ (syms.string text).1 = SymbolTable.stringName id := by
    unfold SymbolTable.string
    split
    · rename_i id hf
      obtain ⟨hlt, hs, -⟩ := findIdx?_eq_some_iff_getElem.mp hf
      exact ⟨id, by rw [getElem?_eq_getElem hlt, of_decide_eq_true hs], rfl⟩
    · exact ⟨_, Table.getElem?_push_nextId _ _, rfl⟩
  obtain ⟨more, hm⟩ := h
  have hen : (text, (syms.string text).1) ∈ em.kept.symbols.stringEntries := by
    refine mem_map.mpr ⟨(id, text), Table.mem_entries.mpr ?_, by rw [hsy]⟩
    rw [← hm, getElem?_append_left (List.getElem?_eq_some_iff.mp hid).1, hid]
  obtain ⟨before, after, he⟩ := append_of_mem hen
  rw [toUnit_rodata, he, flatMap_append, flatMap_cons, ← append_assoc]
  exact ⟨_, _, rfl⟩

/-- Whatever work is done, no string is taken back. -/
theorem Drained.strings_prefix {cx : Context} {em last : Emission} {parts : List (Work × Outcome)}
    (h : Drained cx em parts last) (hp : cx.Prepared) : em.kept.symbols.strings <+: last.kept.symbols.strings := by
  induction h with
  | done _ => exact prefix_refl _
  | step hq hw _ ih =>
    obtain ⟨kept, reports, hn, -, hk⟩ := hw.keeps hp
    refine IsPrefix.trans ?_ ih
    rw [hk]
    exact hn.strings_prefix

/-- A string that some piece of work asks for is in the unit in the end, at the label that was handed out. -/
theorem infix_rodata_of_notes {cx : Context} {kept : Selection} {next drained last : Emission} {parts : List (Work × Outcome)}
    {text : String} (hn : Notes cx { kept with symbols := (kept.symbols.string text).2 } next.kept)
    (hd : Drained cx next parts drained) (hp : cx.Prepared) (hs : emitStart cx drained = .ok last) (debug : Bool) :
    [.label (kept.symbols.string text).1, .data (.ascii text)] <:+: (last.toUnit debug).rodata := by
  obtain ⟨items, hst⟩ := starts_of_emitStart hs
  refine infix_rodata_of_string ?_ debug
  rw [hst.symbols_eq.1]
  exact hn.strings_prefix.trans (hd.strings_prefix hp)

/-- Whatever the text, an assembler reads its bytes from what is written between the quotes, all of which is printable. As many bytes are
announced in the table of names, and passed along with the label that they stand at. -/
theorem escapeText_read_back (text : String) :
    (∀ rest, readString ((escapeText text).toList ++ '\x22' :: rest) = some (text.toUTF8.toList, rest)) ∧
      (∀ c ∈ (escapeText text).toList, ' ' ≤ c ∧ c ≤ '~') ∧
      DebugTables.stringItems text = [.data (.long text.toUTF8.toList.length), .data (.ascii text)] ∧
      ∀ kept, ∃ symbol symbols,
        (stringArguments text).run.run kept = .ok (.ok [.symbol symbol, .immediate text.toUTF8.toList.length], { kept with symbols }) ∧
        ∀ (emission : Emission) (debugInfo : Bool), symbols.strings <+: emission.kept.symbols.strings →
          [Item.label symbol, .data (.ascii text)] <:+: (emission.toUnit debugInfo).rodata := by
  rw [length_bytes, escapeText, String.toList_ofList]
  refine ⟨readString_escapeBytes _, fun c hc => ?_, rfl, fun kept => ⟨_, _, rfl, fun _ debugInfo h => infix_rodata_of_string h debugInfo⟩⟩
  obtain ⟨byte, -, hbyte⟩ := mem_flatMap.mp hc
  exact printable_of_mem_escapeByte byte c hbyte

/-- The seven is not read as a part of the escape in front of it. -/
theorem escapeText_read_back_seven :
    escapeText "\t\r7" = "\\t\\0157" ∧ readString ("\\t\\0157".toList ++ ['\x22']) = some ("\t\r7".toUTF8.toList, []) ∧
      [Item.label ".Lstr0", .data (.ascii "\t\r7")] <:+:
        (Emission.toUnit ⟨⟨⟨[], ["\t\r7"], [], [], []⟩, [], [], []⟩, [], .empty, []⟩ false).rodata := by
  obtain ⟨hread, -, -, hpassed⟩ := escapeText_read_back "\t\r7"
  obtain ⟨symbol, symbols, hrun, hdata⟩ := hpassed ⟨⟨[], [], [], [], []⟩, [], [], []⟩
  rw [length_bytes] at hrun
  cases hrun
  have hwritten : escapeText "\t\r7" = "\\t\\0157" := by decide +kernel
  rw [hwritten] at hread
  exact ⟨hwritten, hread [], hdata ⟨⟨⟨[], ["\t\r7"], [], [], []⟩, [], [], []⟩, [], .empty, []⟩ false (prefix_refl _)⟩

end Select

end TagAsm
