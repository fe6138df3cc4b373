import Mathlib.Data.List.Nodup
import TagAsm.Json.Shape
import TagAsm.Proofs.JsonText

/-!
# Encoders and decoders

Data is encoded as a JSON value, and the value is decoded with a bound on its levels. What is encoded in few enough levels is decoded, and
what is decoded, from whatever value, can be encoded in these levels. This is one fact about an encoder and a decoder, and the facts about
parts make the facts about wholes: about lists, about what may be missing, and about records.
-/

namespace TagAsm.Json

open List

/-! ## Levels -/

mutual

/-- How many levels a value has. -/
def depth : Json → Nat
  | .null | .bool _ | .integer _ | .decimal _ | .string _ => 0
  | .array items => itemsDepth items + 1
  | .object members => membersDepth members + 1

/-- How many levels the deepest item has. -/
def itemsDepth : List Json → Nat
  | [] => 0
  | item :: items => max item.depth (itemsDepth items)

/-- How many levels the deepest member has. -/
def membersDepth : List (Option String × Json) → Nat
  | [] => 0
  | (_, value) :: members => max value.depth (membersDepth members)

end

variable {items : List Json} {levels : Nat}

/-- Items are no deeper than the deepest of them. -/
theorem itemsDepth_le : itemsDepth items ≤ levels ↔ ∀ item ∈ items, item.depth ≤ levels := by
  induction items with
  | nil => simp [itemsDepth]
  | cons item items ih => rw [itemsDepth, Nat.max_le, ih, forall_mem_cons]

variable {members : List (String × Json)}

/-- Members are no deeper than the deepest of them. -/
theorem membersDepth_record_le :
    membersDepth (members.map fun member => (some member.1, member.2)) ≤ levels ↔ ∀ member ∈ members, member.2.depth ≤ levels := by
  induction members with
  | nil => simp [membersDepth]
  | cons member members ih => rw [map_cons, membersDepth, Nat.max_le, ih, forall_mem_cons]

@[simp] theorem depth_natural (val : Nat) : (natural val).depth = 0 := rfl

@[simp] theorem depth_bool (val : Bool) : (bool val).depth = 0 := rfl

@[simp] theorem depth_text (val : String) : (text val).depth = 0 := rfl

/-- An array is one level deeper than its items. -/
@[simp] theorem depth_array_le : (array items).depth ≤ levels + 1 ↔ ∀ item ∈ items, item.depth ≤ levels := by
  rw [depth, Nat.add_le_add_iff_right, itemsDepth_le]

/-- A record is one level deeper than its members. -/
@[simp] theorem depth_record_le : (record members).depth ≤ levels + 1 ↔ ∀ member ∈ members, member.2.depth ≤ levels := by
  rw [record, depth, Nat.add_le_add_iff_right, membersDepth_record_le]

variable {name : String} {payload : Json}

/-- So is a tag with what it holds. -/
@[simp] theorem depth_tagged_le : (tagged name payload).depth ≤ levels + 1 ↔ payload.depth ≤ levels := by
  simp [tagged, depth, membersDepth]

/-- An array has a level. -/
theorem depth_array_pos (items : List Json) : 0 < (array items).depth := by
  exact Nat.succ_pos _

/-- A record has a level. -/
theorem depth_record_pos (members : List (String × Json)) : 0 < (record members).depth := by
  exact Nat.succ_pos _

/-- A tag that holds something has a level. -/
theorem depth_tagged_pos (name : String) (payload : Json) : 0 < (tagged name payload).depth := by
  exact Nat.succ_pos _

/-- An object that tells what its value is takes a level. -/
theorem exists_of_depth_tagged_le (h : (tagged name payload).depth ≤ levels) : ∃ fewer, levels = fewer + 1 ∧ payload.depth ≤ fewer := by
  obtain ⟨fewer, rfl⟩ := Nat.exists_eq_add_one.mpr (Nat.lt_of_lt_of_le (depth_tagged_pos name payload) h)
  exact ⟨fewer, rfl, depth_tagged_le.mp h⟩

/-- A record in such an object takes two levels. -/
theorem exists_of_depth_tagged_record_le (h : (tagged name (record members)).depth ≤ levels) :
    ∃ fewer, levels = fewer + 2 ∧ ∀ member ∈ members, member.2.depth ≤ fewer := by
  obtain ⟨rest, rfl, hp⟩ := exists_of_depth_tagged_le h
  obtain ⟨fewer, rfl⟩ := Nat.exists_eq_add_one.mpr (Nat.lt_of_lt_of_le (depth_record_pos members) hp)
  exact ⟨fewer, rfl, depth_record_le.mp hp⟩

/-! ## Plain values -/

@[simp] theorem plain_null : Plain .null := .null

@[simp] theorem plain_bool (val : Bool) : (bool val).Plain := .bool val

@[simp] theorem plain_integer (val : Int) : (integer val).Plain := .integer val

@[simp] theorem plain_natural (val : Nat) : (natural val).Plain := .integer val

@[simp] theorem plain_text (val : String) : (text val).Plain := .text val

/-- An array is plain if its items are. -/
@[simp] theorem plain_array : (array items).Plain ↔ ∀ item ∈ items, item.Plain := by
  refine ⟨fun h => ?_, .array⟩
  cases h with
  | array hi => exact hi

variable {α : Type} {encode : α → Json}

/-- A list is plain if what it is of is. -/
@[simp] theorem plain_list {vals : List α} : (list encode vals).Plain ↔ ∀ val ∈ vals, (encode val).Plain := by
  rw [list, plain_array, forall_mem_map]

/-- What may be null is plain if it is when it is there. -/
@[simp] theorem plain_nullable {found : Option α} : (nullable encode found).Plain ↔ ∀ val ∈ found, (encode val).Plain := by
  cases found <;> simp [nullable]

/-- A record is plain if its members are. -/
@[simp] theorem plain_record : (record members).Plain ↔ ∀ member ∈ members, member.2.Plain := by
  constructor
  · intro h member hm
    cases h with
    | object _ hvl => exact hvl (some member.1, member.2) (mem_map_of_mem hm)
  · intro h
    refine .object (forall_mem_map.mpr fun _ _ => rfl) (forall_mem_map.mpr h)

/-- A tag is plain if what it holds is. -/
@[simp] theorem plain_tagged : (tagged name payload).Plain ↔ payload.Plain := by
  have hr : tagged name payload = record [(name, payload)] := rfl
  simp [hr]

/-! ## Shapes -/

section

variable {α β : Type} {decode : α → Option β} {items : List α} {vals : List β}

/-- A list is read if its items are read one by one. -/
theorem mapM_eq_some_of_zip (hl : items.length = vals.length) (h : ∀ pair ∈ items.zip vals, decode pair.1 = some pair.2) :
    items.mapM decode = some vals := by
  induction items generalizing vals with
  | nil =>
    obtain rfl := eq_nil_of_length_eq_zero hl.symm
    rfl
  | cons item items ih =>
    cases vals with
    | nil => cases hl
    | cons val vals =>
      rw [zip_cons_cons, forall_mem_cons] at h
      rw [mapM_cons, h.1, ih (Nat.succ.inj hl) h.2]
      rfl

/-- What was read comes from one of the items. -/
theorem exists_of_mem_of_mapM_eq_some (h : items.mapM decode = some vals) {val : β} (hv : val ∈ vals) :
    ∃ item ∈ items, decode item = some val := by
  induction items generalizing vals with
  | nil =>
    cases h
    exact absurd hv not_mem_nil
  | cons item items ih =>
    rw [mapM_cons] at h
    obtain ⟨first, hf, h⟩ := Option.bind_eq_some_iff.mp h
    obtain ⟨rest, hr, h⟩ := Option.bind_eq_some_iff.mp h
    cases h
    rcases mem_cons.mp hv with rfl | hv
    · exact ⟨item, mem_cons_self, hf⟩
    · obtain ⟨found, hfn, hd⟩ := ih hr hv
      exact ⟨found, mem_cons_of_mem _ hfn, hd⟩

end

/-- A field is found under its name, if no other has this name. -/
theorem field_of_mem (hn : (members.map (·.1)).Nodup) {member : String × Json} (h : member ∈ members) (presence : Presence) :
    field (members.map fun given => (some given.1, given.2)) (member.1, presence) = some member.2 := by
  -- A field that is given twice is refused, so it has to be the only one.
  have hf : (members.map fun given => (some given.1, given.2)).filter (fun given => given.1 = some member.1) =
      [(some member.1, member.2)] := by
    induction members with
    | nil => exact absurd h not_mem_nil
    | cons first members ih =>
      rw [map_cons, nodup_cons] at hn
      rcases mem_cons.mp h with rfl | h
      · have hr : (members.map fun given => (some given.1, given.2)).filter (fun given => given.1 = some member.1) = [] := by
          rw [filter_eq_nil_iff]
          intro given hg
          obtain ⟨other, ho, rfl⟩ := mem_map.mp hg
          simp only [Option.some.injEq, decide_eq_true_eq]
          exact fun heq => hn.1 (heq ▸ mem_map_of_mem ho)
        rw [map_cons, filter_cons_of_pos (by simp), hr]
      · have hfr : first.1 ≠ member.1 := fun heq => hn.1 (heq ▸ mem_map_of_mem h)
        rw [map_cons, filter_cons_of_neg (by simpa using hfr), ih hn.2 h]
  unfold field
  dsimp only
  rw [hf]

/-- A record is read by the names of its fields, in the order in which they are written. -/
theorem asFields_record {fields : List (String × Presence)} (hn : members.map (·.1) = fields.map (·.1))
    (hnd : (fields.map (·.1)).Nodup) : asFields fields (record members) = some (members.map (·.2)) := by
  have hall : (members.map fun given => (some given.1, given.2)).all (·.1.isSome) = true := by
    simp
  have hmap : fields.mapM (field (members.map fun given => (some given.1, given.2))) = some (members.map (·.2)) := by
    have hl : members.length = fields.length := by simpa using congrArg length hn
    refine mapM_eq_some_of_zip (by rw [length_map, hl]) fun pair hp => ?_
    obtain ⟨position, hps, rfl⟩ := mem_iff_getElem.mp hp
    have hfs : position < fields.length := lt_length_left_of_zip hps
    have hm : position < members.length := hl ▸ hfs
    have hnm : (members[position]).1 = (fields[position]).1 := by
      have hmp : (members.map (·.1))[position]? = (fields.map (·.1))[position]? := by rw [hn]
      simpa [hfs, hm] using hmp
    have hf := field_of_mem (hn ▸ hnd) (getElem_mem hm) (fields[position]).2
    rw [hnm] at hf
    simpa using hf
  rw [record, asFields, if_pos hall, hmap]

variable {first second : String}

/-- The fields of a record of two are found. -/
@[simp] theorem asFields_pair (h : first ≠ second) (one other : Presence) (left right : Json) :
    asFields [(first, one), (second, other)] (record [(first, left), (second, right)]) = some [left, right] :=
  asFields_record rfl (by simpa using h)

/-- The fields of a record of three are found. -/
@[simp] theorem asFields_triple {third : String} (hs : first ≠ second) (ht : first ≠ third) (hl : second ≠ third)
    (one other last : Presence) (left mid right : Json) :
    asFields [(first, one), (second, other), (third, last)] (record [(first, left), (second, mid), (third, right)]) =
      some [left, mid, right] :=
  asFields_record rfl (by simpa using ⟨⟨hs, ht⟩, hl⟩)

/-! ## Encoders and decoders -/

/-- What is encoded within some levels is decoded, and what is decoded can be encoded within these levels. -/
structure Codec {α : Type} (fits : α → Prop) (encode : α → Json) (decode : Json → Option α) (levels : Nat) : Prop where
  read {val : α} (hfits : fits val) (hlevels : (encode val).depth ≤ levels) : decode (encode val) = some val
  decoded {json : Json} {val : α} (h : decode json = some val) : fits val ∧ (encode val).depth ≤ levels

/-- A number that an id can have. -/
def IsId (id : Nat) : Prop := id < UInt32.size

variable {low high val : Int}

/-- A number that is read is within its bounds. -/
theorem asInteger_eq_some {json : Json} (h : asInteger low high json = some val) : low ≤ val ∧ val ≤ high := by
  unfold asInteger at h
  split at h
  · split at h
    · rename_i hr
      cases h
      exact hr
    · cases h
  · cases h

/-- A number within its bounds is read. -/
theorem asInteger_integer (h : low ≤ val ∧ val ≤ high) : asInteger low high (.integer val) = some val := if_pos h

/-- An id is read as it is written. -/
theorem asId_natural {id : Nat} (h : IsId id) : asId (natural id) = some id := by
  have hr : (0 : Int) ≤ id ∧ (id : Int) ≤ 4294967295 := by
    unfold IsId UInt32.size at h
    omega
  rw [asId, natural, asInteger_integer hr]
  rfl

/-- A number of 32 bits is written as an id. -/
@[simp] theorem asId_natural_toNat (val : UInt32) : asId (natural val.toNat) = some val.toNat := asId_natural val.toNat_lt_size

/-- Text is read as it is written. -/
@[simp] theorem asString_text (val : String) : asString (.text val) = some val := rfl

/-- A name alone is an alternative that holds nothing. -/
@[simp] theorem asAlternative_text (name : String) : asAlternative (.text name) = some (.bare name) := rfl

/-- A tag is an alternative that holds something. -/
@[simp] theorem asAlternative_tagged (name : String) (payload : Json) :
    asAlternative (tagged name payload) = some (.holding name payload) := rfl

/-- Alternatives are told apart by their names. -/
theorem asChoice_name {name : α → String} {all : List α}
    (hall : ∀ val ∈ all, all.find? (fun other => name other = name val) = some val) {val : α} (h : val ∈ all)
    (levels : Nat) : asChoice name all levels (.text (name val)) = some val :=
  hall val h

/-- A truth value is read as it is written. -/
@[simp] theorem asBool_bool (val : Bool) : asBool (.bool val) = some val := rfl

/-- It is so for every smaller number of levels. -/
def CodecBelow {α : Type} (fits : α → Prop) (encode : α → Json) (decode : Nat → Json → Option α) (levels : Nat) : Prop :=
  ∀ fewer < levels, Codec fits encode (decode fewer) fewer

/-- What holds below some levels holds below fewer. -/
theorem CodecBelow.mono {fits : α → Prop} {decode : Nat → Json → Option α} {fewer : Nat}
    (h : CodecBelow fits encode decode levels) (hf : fewer ≤ levels) : CodecBelow fits encode decode fewer :=
  fun less hl => h less (Nat.lt_of_lt_of_le hl hf)

namespace Codec

variable {α : Type} {fits : α → Prop} {encode : α → Json} {decode : Json → Option α} {levels : Nat}

section

variable {json : Json} {val : α} (h : Codec fits encode decode levels) (hv : decode json = some val)
include h hv

/-- What was read fits. -/
theorem sound : fits val := (h.decoded hv).1

/-- What was read is written with no more levels. -/
theorem depth_le : (encode val).depth ≤ levels := (h.decoded hv).2

end

/-- Where no level is left, nothing is decoded that has a level of its own. -/
theorem zero (hd : ∀ json, decode json = none) (hdp : ∀ val, 0 < (encode val).depth) : Codec fits encode decode 0 where
  read {val} _ hl := absurd hl (Nat.not_le_of_lt (hdp val))
  decoded {json val} h := by
    rw [hd json] at h
    cases h

/-- Ids are read as they are written. -/
theorem id (levels : Nat) : Codec IsId natural asId levels where
  read hf _ := asId_natural hf
  decoded {json val} h := by
    obtain ⟨num, hn, rfl⟩ := Option.map_eq_some_iff.mp h
    have hr := asInteger_eq_some hn
    refine ⟨?_, Nat.zero_le _⟩
    unfold IsId UInt32.size
    omega

/-- Texts are read as they are written. -/
theorem text (levels : Nat) : Codec (fun _ => True) text asString levels where
  read _ _ := rfl
  decoded _ := ⟨trivial, Nat.zero_le _⟩

/-- What is never null may be missing. -/
theorem option (h : Codec fits encode decode levels) (hn : ∀ val, encode val ≠ .null) :
    Codec (fun found => ∀ val ∈ found, fits val) (nullable encode) (asOption decode) levels := by
  constructor
  case read =>
    intro found hft hl
    cases found with
    | none => rfl
    | some val =>
      unfold asOption nullable
      split
      · rename_i heq
        exact absurd heq (hn val)
      · rw [h.read (hft val rfl) hl]
        rfl
  case decoded =>
    intro json found hf
    unfold asOption at hf
    split at hf
    · cases hf
      refine ⟨?_, Nat.zero_le _⟩
      rintro val ⟨⟩
    · obtain ⟨val, hv, rfl⟩ := Option.map_eq_some_iff.mp hf
      refine ⟨?_, h.depth_le hv⟩
      rintro same ⟨⟩
      exact h.sound hv

/-- The items of a list have one level less. -/
theorem list {decode : Nat → Json → Option α} {levels : Nat} (h : CodecBelow fits encode decode levels) :
    Codec (fun vals => ∀ val ∈ vals, fits val) (list encode) (asList decode levels) levels := by
  cases levels with
  | zero => exact .zero (fun _ => rfl) fun _ => depth_array_pos _
  | succ fewer =>
    have hi := h fewer (Nat.lt_succ_self fewer)
    constructor
    case read =>
      intro vals hf hl
      rw [Json.list, depth_array_le, forall_mem_map] at hl
      refine mapM_eq_some_of_zip (length_map encode) fun pair hp => ?_
      obtain ⟨position, hps, rfl⟩ := mem_iff_getElem.mp hp
      have hln : position < vals.length := lt_length_right_of_zip hps
      have hv : vals[position] ∈ vals := getElem_mem hln
      simpa using hi.read (hf _ hv) (hl _ hv)
    case decoded =>
      intro json vals hvl
      cases json with
      | array items =>
        have hd : ∀ val ∈ vals, fits val ∧ (encode val).depth ≤ fewer := by
          intro val hv
          obtain ⟨item, -, hdc⟩ := exists_of_mem_of_mapM_eq_some hvl hv
          exact hi.decoded hdc
        rw [Json.list, depth_array_le, forall_mem_map]
        exact ⟨fun val hv => (hd val hv).1, fun val hv => (hd val hv).2⟩
      | null | bool | integer | decimal | string | object => cases hvl

/-- The fields of a record have one level less. -/
theorem record {fields : List (String × Presence)} {members : α → List (String × Json)} {decode : Nat → Json → Option α}
    {next : Nat → List Json → Option α} (hz : ∀ json, decode 0 json = none)
    (hs : ∀ fewer json, decode (fewer + 1) json = asFields fields json >>= next fewer)
    (hnm : ∀ val, (members val).map (·.1) = fields.map (·.1)) (hnd : (fields.map (·.1)).Nodup)
    (h : ∀ fewer, levels = fewer + 1 → (∀ val, fits val → (∀ member ∈ members val, member.2.depth ≤ fewer) →
        next fewer ((members val).map (·.2)) = some val) ∧
      ∀ items val, next fewer items = some val → fits val ∧ ∀ member ∈ members val, member.2.depth ≤ fewer) :
    Codec fits (fun val => record (members val)) (decode levels) levels := by
  cases levels with
  | zero => exact .zero hz fun _ => depth_record_pos _
  | succ fewer =>
    obtain ⟨hr, hd⟩ := h fewer rfl
    constructor
    case read =>
      intro val hf hl
      rw [hs, asFields_record (hnm val) hnd]
      exact hr val hf (depth_record_le.mp hl)
    case decoded =>
      intro json val hj
      rw [hs] at hj
      obtain ⟨items, -, hn⟩ := Option.bind_eq_some_iff.mp hj
      exact ⟨(hd items val hn).1, depth_record_le.mpr (hd items val hn).2⟩

end Codec

/-- No number is null. -/
theorem natural_ne_null (val : Nat) : natural val ≠ .null := by
  rintro ⟨⟩

/-- No text is null. -/
theorem text_ne_null (val : String) : text val ≠ .null := by
  rintro ⟨⟩

/-- No record is null. -/
theorem record_ne_null (members : List (String × Json)) : record members ≠ .null := by
  rintro ⟨⟩

end TagAsm.Json
