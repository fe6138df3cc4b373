import TagAsm.Proofs.Documents

/-!
# Programs survive their documents

A program is read back from its document, whole, as long as the document has no more levels than documents may have. A document that is
read may be spelled in other ways than the one in which programs are written, but what is read from it can be written, in no more levels,
and is read again.
-/

namespace TagAsm

open List Option
open Json (Codec IsId)

namespace Source

/-! ## Declarations -/

/-- The document of a variable is plain. -/
@[simp] theorem Variable.plain_toJson (decl : Variable) : decl.toJson.Plain := by
  simp [toJson]

/-- The ids that a variable holds are ids. -/
def Variable.IdsFit (decl : Variable) : Prop := IsId decl.id ∧ decl.symbol.IdsFit ∧ IsId decl.ty

/-- Variables are read as they are written. -/
theorem Variable.codec (levels : Nat) : Codec Variable.IdsFit Variable.toJson (Variable.ofJson? levels) levels := by
  refine .record (fun _ => rfl) (fun _ _ => rfl) (fun _ => rfl) (by decide) fun fewer _ => ?_
  have hn := Codec.id fewer
  have hs := Symbol.codec fewer
  constructor
  · intro decl hf hl
    simp only [forall_mem_cons] at hl
    simp [Json.asId_natural hf.1, hs.read hf.2.1 hl.2.1, Json.asId_natural hf.2.2]
  · intro items decl h
    split at h <;> simp only [bind_eq_bind, bind_eq_some_iff, Option.pure_def, Option.some.injEq, reduceCtorEq] at h
    obtain ⟨id, hid, sym, hfn, ty, hty, rfl⟩ := h
    exact ⟨⟨hn.sound hid, hs.sound hfn, hn.sound hty⟩, by simp [hs.depth_le hfn]⟩

/-- Lists of variables are read as they are written. -/
theorem codec_variables (levels : Nat) :
    Codec (fun decls => ∀ decl ∈ decls, decl.IdsFit) (Json.list Variable.toJson) (Json.asList Variable.ofJson? levels) levels :=
  .list fun fewer _ => Variable.codec fewer

/-- The ids in what a function consists of are ids. -/
def FunctionKind.IdsFit : FunctionKind → Prop
  | .defined parameters locals body =>
    (∀ decl ∈ parameters, decl.IdsFit) ∧ (∀ decl ∈ locals, decl.IdsFit) ∧ body.IdsFit
  | .declared | .imported .. => True

/-- What is read as a kind of function fits, and is not too deep. -/
theorem FunctionKind.decoded_of_ofFields? {levels : Nat} {name : String} {payload : Json} {kind : FunctionKind}
    (h : FunctionKind.ofFields? levels name payload = some kind) : kind.IdsFit ∧ kind.toJson.depth ≤ levels + 1 := by
  cases levels with
  | zero => cases h
  | succ fewer =>
    have hd := codec_variables fewer
    have hs := Stmt.codec fewer
    have hn := (Codec.text fewer).option Json.text_ne_null
    rw [FunctionKind.ofFields?.eq_def] at h
    dsimp only at h
    split at h
    case h_3 => cases h
    all_goals
      obtain ⟨items, -, h⟩ := bind_eq_some_iff.mp h
      split at h
      case h_2 => cases h
      simp only [bind_eq_bind, bind_eq_some_iff, Option.pure_def, Option.some.injEq] at h
    · obtain ⟨params, hp, locals, hl, body, hb, rfl⟩ := h
      exact ⟨⟨hd.sound hp, hd.sound hl, hs.sound hb⟩, by simp [FunctionKind.toJson, hd.depth_le hp, hd.depth_le hl, hs.depth_le hb]⟩
    · obtain ⟨library, -, entryPoint, he, rfl⟩ := h
      exact ⟨trivial, by simp [FunctionKind.toJson, hn.depth_le he]⟩

/-- Kinds of functions are read as they are written. -/
theorem FunctionKind.codec (levels : Nat) : Codec FunctionKind.IdsFit FunctionKind.toJson (FunctionKind.ofJson? levels) levels := by
  constructor
  case read =>
    intro kind hf hl
    cases kind with
    | defined params locals body =>
      obtain ⟨fewer, rfl, hm⟩ := Json.exists_of_depth_tagged_record_le hl
      simp only [forall_mem_cons] at hm
      have hd := codec_variables fewer
      simp [FunctionKind.toJson, FunctionKind.ofJson?, FunctionKind.ofFields?, Json.asRecord, hd.read hf.1 hm.1,
        hd.read hf.2.1 hm.2.1, (Stmt.codec fewer).read hf.2.2 hm.2.2.1]
    | declared => simp [FunctionKind.toJson, FunctionKind.ofJson?]
    | imported library entryPoint =>
      obtain ⟨fewer, rfl, hm⟩ := Json.exists_of_depth_tagged_record_le hl
      simp only [forall_mem_cons] at hm
      have hn := (Codec.text fewer).option Json.text_ne_null
      simp [FunctionKind.toJson, FunctionKind.ofJson?, FunctionKind.ofFields?, hn.read (fun _ _ => trivial) hm.2.1]
  case decoded =>
    intro json kind h
    unfold FunctionKind.ofJson? at h
    split at h
    · cases h
      exact ⟨trivial, Nat.zero_le _⟩
    · cases h
      exact ⟨trivial, Nat.zero_le _⟩
    · exact FunctionKind.decoded_of_ofFields? h
    · cases h

/-- A linkage is found by its name. -/
@[simp] theorem Linkage.ofJson?_text (levels : Nat) (linkage : Linkage) : ofJson? levels (.text linkage.name) = some linkage :=
  Json.asChoice_name (by decide +kernel) (by cases linkage <;> decide) levels

/-- The document of a function is plain. -/
@[simp] theorem Function.plain_toJson (fn : Function) : fn.toJson.Plain := by
  have hk : fn.kind.toJson.Plain := by
    cases fn.kind <;> simp [FunctionKind.toJson, Stmt.plain_toJson]
  simp [toJson, hk]

/-- The ids that a function holds are ids. -/
def Function.IdsFit (fn : Function) : Prop := fn.symbol.IdsFit ∧ IsId fn.ty ∧ fn.kind.IdsFit

/-- Functions are read as they are written. -/
theorem Function.codec (levels : Nat) : Codec Function.IdsFit Function.toJson (Function.ofJson? levels) levels := by
  refine .record (fun _ => rfl) (fun _ _ => rfl) (fun _ => rfl) (by decide) fun fewer _ => ?_
  have hs := Symbol.codec fewer
  have hk := FunctionKind.codec fewer
  constructor
  · intro fn hf hl
    simp only [forall_mem_cons] at hl
    simp [hs.read hf.1 hl.1, Json.asId_natural hf.2.1, hk.read hf.2.2 hl.2.2.2.2.1]
  · intro items fn h
    split at h <;> simp only [bind_eq_bind, bind_eq_some_iff, Option.pure_def, Option.some.injEq, reduceCtorEq] at h
    obtain ⟨sym, hn, ty, hty, linkage, -, isMethod, -, kind, hfn, rfl⟩ := h
    exact ⟨⟨hs.sound hn, (Codec.id fewer).sound hty, hk.sound hfn⟩, by simp [hs.depth_le hn, hk.depth_le hfn]⟩

/-- The document of a class is plain. -/
@[simp] theorem ClassDecl.plain_toJson (decl : ClassDecl) : decl.toJson.Plain := by
  simp [toJson]

/-- The ids that a class holds are ids. -/
structure ClassDecl.IdsFit (decl : ClassDecl) : Prop where
  symbol : decl.symbol.IdsFit
  ty : IsId decl.ty
  parent : ∀ parent ∈ decl.parent, IsId parent
  fields : ∀ field ∈ decl.fields, field.IdsFit
  methods : ∀ method ∈ decl.methods, IsId method

/-- Classes are read as they are written. -/
theorem ClassDecl.codec (levels : Nat) : Codec ClassDecl.IdsFit ClassDecl.toJson (ClassDecl.ofJson? levels) levels := by
  refine .record (fun _ => rfl) (fun _ _ => rfl) (fun _ => rfl) (by decide) fun fewer _ => ?_
  have hs := Symbol.codec fewer
  have hnm := Codec.id fewer
  have hp := hnm.option Json.natural_ne_null
  have hfl := codec_variables fewer
  have hm := codec_ids fewer
  constructor
  · intro decl hf hl
    simp only [forall_mem_cons] at hl
    simp [hs.read hf.symbol hl.1, Json.asId_natural hf.ty, hp.read hf.parent hl.2.2.1,
      hfl.read hf.fields hl.2.2.2.1, hm.read hf.methods hl.2.2.2.2.1]
  · intro items decl h
    split at h <;> simp only [bind_eq_bind, bind_eq_some_iff, Option.pure_def, Option.some.injEq, reduceCtorEq] at h
    obtain ⟨sym, hn, ty, hty, parent, hfn, fields, hd, methods, hids, rfl⟩ := h
    exact ⟨⟨hs.sound hn, hnm.sound hty, hp.sound hfn, hfl.sound hd, hm.sound hids⟩,
      by simp [hs.depth_le hn, hp.depth_le hfn, hfl.depth_le hd, hm.depth_le hids]⟩

/-- The ids that a program holds are ids. -/
structure Program.IdsFit (prog : Program) : Prop where
  types : prog.types.IdsFit
  functions : ∀ fn ∈ prog.functions, fn.IdsFit
  classes : ∀ decl ∈ prog.classes, decl.IdsFit
  entry : ∀ entry ∈ prog.entry, IsId entry

/-- Programs are read as they are written. -/
theorem Program.codec (levels : Nat) : Codec Program.IdsFit Program.toJson (Program.ofJson? levels) levels := by
  refine .record (fun _ => rfl) (fun _ _ => rfl) (fun _ => rfl) (by decide) fun fewer _ => ?_
  have hfl : Codec (fun files => ∀ file ∈ files, True) _ _ fewer := .list fun less _ => SourceFile.codec less
  have ht := TypeTable.codec fewer
  have hfn : Codec _ _ _ fewer := .list fun less _ => Function.codec less
  have hc : Codec _ _ _ fewer := .list fun less _ => ClassDecl.codec less
  have he := (Codec.id fewer).option Json.natural_ne_null
  constructor
  · intro prog hf hl
    simp only [forall_mem_cons] at hl
    simp [hfl.read (fun _ _ => trivial) hl.1, ht.read hf.types hl.2.1, hfn.read hf.functions hl.2.2.1, hc.read hf.classes hl.2.2.2.1,
      he.read hf.entry hl.2.2.2.2.1]
  · intro items prog h
    split at h <;> simp only [bind_eq_bind, bind_eq_some_iff, Option.pure_def, Option.some.injEq, reduceCtorEq] at h
    obtain ⟨files, hp, types, htb, functions, hls, classes, hd, entry, hfd, rfl⟩ := h
    exact ⟨⟨ht.sound htb, hfn.sound hls, hc.sound hd, he.sound hfd⟩,
      by simp [hfl.depth_le hp, ht.depth_le htb, hfn.depth_le hls, hc.depth_le hd, he.depth_le hfd]⟩

/-! ## Documents -/

/-- The document of a program is plain. -/
theorem Program.plain_toJson (prog : Program) : prog.toJson.Plain := by
  simp [toJson]

/-- What is read from the document of a program. -/
theorem Program.parse?_render (prog : Program) :
    Program.parse? (Json.render prog.toJson) = Program.ofJson? Json.maxDepth prog.toJson := by
  rw [parse?, prog.plain_toJson.parse?_render]
  rfl

/-- A program is read back from its document exactly if its ids are ids and the document has no more levels than documents may have.
Whatever document a program was read from, it is read back from its own. -/
theorem document_read_back (program : Program) : (Program.parse? (Json.render program.toJson) = some program ↔
      program.IdsFit ∧ program.toJson.depth ≤ Json.maxDepth) ∧
    ∀ text, Program.parse? text = some program → Program.parse? (Json.render program.toJson) = some program := by
  have hcodec := Program.codec Json.maxDepth
  rw [Program.parse?_render]
  refine ⟨⟨hcodec.decoded, fun h => hcodec.read h.1 h.2⟩, fun text h => ?_⟩
  obtain ⟨json, -, hjson⟩ := bind_eq_some_iff.mp h
  exact hcodec.read (hcodec.sound hjson) (hcodec.depth_le hjson)

/-- A document in other spellings than the one in which programs are written: records as arrays, a pair of escapes for one character, a
name that stands for null, a member that is no field, and no entry. -/
def spelled : String :=
  "\x7b\"n\":1.5,\"files\":[[\x7b\"Memory\":null\x7d],[\x7b\"File\":\"\\ud83d\\ude00\"\x7d]],\"types\":[[]],\"functions\":[],\"classes\":[]\x7d"

/-- What is read from this document is written otherwise, and read again. -/
theorem document_read_back_spelled :
    ∃ program, Program.parse? spelled = some program ∧ program.files = [⟨.memory⟩, ⟨.file "😀"⟩] ∧ program.toJson.depth = 4 ∧
      program.IdsFit ∧ Program.parse? (Json.render program.toJson) = some program := by
  have hread : (Program.parse? spelled).map (fun program => (program.files, program.toJson.depth)) =
      some ([⟨.memory⟩, ⟨.file "😀"⟩], 4) := by
    decide +kernel
  obtain ⟨program, hprogram, hseen⟩ := map_eq_some_iff.mp hread
  obtain ⟨hfiles, hdepth⟩ := Prod.mk.inj hseen
  have hagain := (document_read_back program).2 spelled hprogram
  exact ⟨program, hprogram, hfiles, hdepth, ((document_read_back program).1.mp hagain).1, hagain⟩

end Source

end TagAsm
