import TagAsm.Proofs.Codecs
import TagAsm.Source.Decode

/-!
# Documents of expressions and statements

Positions, names, types, literals, expressions and statements are read as they are written. Expressions hold expressions and statements hold
statements, so for them it goes by the number of levels. All ids have to fit the numbers that documents have for them.
-/

namespace TagAsm

open List Option
open Json (Codec IsId)

/-! ## Names and types -/

/-- The document of a position is plain. -/
@[simp] theorem Location.plain_toJson (loc : Location) : loc.toJson.Plain := by
  simp [toJson]

/-- The ids that a position holds are ids. -/
def Location.IdsFit (loc : Location) : Prop := ∀ file ∈ loc.file, IsId file

variable (levels : Nat)

/-- Positions are read as they are written. -/
theorem Location.codec : Codec Location.IdsFit Location.toJson (Location.ofJson? levels) levels := by
  refine .record (fun _ => rfl) (fun _ _ => rfl) (fun _ => rfl) (by decide) fun fewer _ => ?_
  have hf := (Codec.id fewer).option Json.natural_ne_null
  constructor
  · intro loc hft hlv
    simp only [forall_mem_cons] at hlv
    simp [hf.read hft hlv.1]
  · intro items loc h
    split at h <;> simp only [bind_eq_bind, bind_eq_some_iff, Option.pure_def, Option.some.injEq, reduceCtorEq] at h
    obtain ⟨file, hfn, line, -, column, -, rfl⟩ := h
    exact ⟨hf.sound hfn, by simp [hf.depth_le hfn]⟩

/-- The document of a name is plain. -/
@[simp] theorem Symbol.plain_toJson (sym : Symbol) : sym.toJson.Plain := by
  simp [toJson]

/-- The ids that a name holds are ids. -/
def Symbol.IdsFit (sym : Symbol) : Prop := sym.location.IdsFit

/-- Names are read as they are written. -/
theorem Symbol.codec (levels : Nat) : Codec Symbol.IdsFit Symbol.toJson (Symbol.ofJson? levels) levels := by
  refine .record (fun _ => rfl) (fun _ _ => rfl) (fun _ => rfl) (by decide) fun fewer _ => ?_
  have hl := Location.codec fewer
  constructor
  · intro sym hft hlv
    simp only [forall_mem_cons] at hlv
    simp [hl.read hft hlv.2.1]
  · intro items sym h
    split at h <;> simp only [bind_eq_bind, bind_eq_some_iff, Option.pure_def, Option.some.injEq, reduceCtorEq] at h
    obtain ⟨name, -, loc, hf, rfl⟩ := h
    exact ⟨hl.sound hf, by simp [hl.depth_le hf]⟩

/-- The document of a file is plain. -/
@[simp] theorem SourceFile.plain_toJson (file : SourceFile) : file.toJson.Plain := by
  obtain ⟨origin⟩ := file
  cases origin <;> simp [toJson, Origin.toJson]

/-- Where a file comes from is read as it is written. -/
theorem Origin.codec : Codec (fun _ => True) Origin.toJson (Origin.ofJson? levels) levels := by
  constructor
  case read =>
    intro origin _ hlv
    cases origin with
    | memory => simp [Origin.toJson, Origin.ofJson?]
    | file path =>
      obtain ⟨fewer, rfl, -⟩ := Json.exists_of_depth_tagged_le hlv
      simp [Origin.toJson, Origin.ofJson?]
  case decoded =>
    intro json origin h
    refine ⟨trivial, ?_⟩
    unfold Origin.ofJson? at h
    split at h
    · cases h
      exact Nat.zero_le _
    · cases h
      exact Nat.zero_le _
    · obtain ⟨path, -, rfl⟩ := map_eq_some_iff.mp h
      exact Json.depth_tagged_le.mpr (Nat.zero_le _)
    · cases h

/-- Files are read as they are written. -/
theorem SourceFile.codec (levels : Nat) : Codec (fun _ => True) SourceFile.toJson (SourceFile.ofJson? levels) levels := by
  refine .record (fun _ => rfl) (fun _ _ => rfl) (fun _ => rfl) (by decide) fun fewer _ => ?_
  have ho := Origin.codec fewer
  constructor
  · intro file _ hlv
    simp only [forall_mem_cons] at hlv
    simp [ho.read trivial hlv.1]
  · intro items file h
    split at h <;> simp only [bind_eq_bind, bind_eq_some_iff, Option.pure_def, Option.some.injEq, reduceCtorEq] at h
    obtain ⟨origin, hf, rfl⟩ := h
    exact ⟨trivial, by simp [ho.depth_le hf]⟩

/-- The ids that a type holds are ids. -/
def TypeKind.IdsFit : TypeKind → Prop
  | .void | .dynamic | .primitive _ => True
  | .array element => IsId element
  | .function parameters ret => (∀ parameter ∈ parameters, IsId parameter) ∧ IsId ret
  | .classType classId args => IsId classId ∧ ∀ arg ∈ args, IsId arg

/-- A primitive is found by its name. -/
@[simp] theorem Primitive.asChoice_name (levels : Nat) (kind : Primitive) :
    Json.asChoice Primitive.name Primitive.all levels (.text kind.name) = some kind :=
  Json.asChoice_name (by decide +kernel) (by cases kind <;> decide) levels

/-- Lists of ids are read as they are written. -/
theorem codec_ids : Codec (fun ids => ∀ id ∈ ids, IsId id) (Json.list Json.natural) (idsOfJson? levels) levels :=
  .list fun fewer _ => .id fewer

/-- What a type holds is decoded with its name. -/
theorem TypeKind.decoded_of_ofPayload? {levels : Nat} {name : String} {payload : Json} {kind : TypeKind}
    (h : TypeKind.ofPayload? levels name payload = some kind) : kind.IdsFit ∧ kind.toJson.depth ≤ levels + 1 := by
  unfold TypeKind.ofPayload? at h
  split at h
  · obtain ⟨primitive, -, rfl⟩ := map_eq_some_iff.mp h
    exact ⟨trivial, Json.depth_tagged_le.mpr (Nat.zero_le _)⟩
  · obtain ⟨element, he, rfl⟩ := map_eq_some_iff.mp h
    exact ⟨(Codec.id levels).sound he, Json.depth_tagged_le.mpr (Nat.zero_le _)⟩
  · rename_i fewer
    obtain ⟨items, -, h⟩ := bind_eq_some_iff.mp h
    split at h <;> simp only [bind_eq_bind, bind_eq_some_iff, Option.pure_def, Option.some.injEq, reduceCtorEq] at h
    obtain ⟨params, hp, ret, hr, rfl⟩ := h
    have hids := codec_ids fewer
    exact ⟨⟨hids.sound hp, (Codec.id fewer).sound hr⟩, by simp [TypeKind.toJson, hids.depth_le hp]⟩
  · rename_i fewer
    obtain ⟨items, -, h⟩ := bind_eq_some_iff.mp h
    split at h <;> simp only [bind_eq_bind, bind_eq_some_iff, Option.pure_def, Option.some.injEq, reduceCtorEq] at h
    obtain ⟨classId, hc, args, ha, rfl⟩ := h
    have hids := codec_ids fewer
    exact ⟨⟨(Codec.id fewer).sound hc, hids.sound ha⟩, by simp [TypeKind.toJson, hids.depth_le ha]⟩
  · cases h

/-- Types are read as they are written. -/
theorem TypeKind.codec : Codec TypeKind.IdsFit TypeKind.toJson (TypeKind.ofJson? levels) levels := by
  constructor
  case read =>
    intro kind hf hlv
    cases kind with
    | void | dynamic => simp [TypeKind.toJson, TypeKind.ofJson?]
    | primitive kind =>
      obtain ⟨fewer, rfl, -⟩ := Json.exists_of_depth_tagged_le hlv
      simp [TypeKind.toJson, TypeKind.ofJson?, TypeKind.ofPayload?]
    | array element =>
      obtain ⟨fewer, rfl, -⟩ := Json.exists_of_depth_tagged_le hlv
      simp [TypeKind.toJson, TypeKind.ofJson?, TypeKind.ofPayload?, Json.asId_natural hf]
    | function params ret =>
      obtain ⟨fewer, rfl, hm⟩ := Json.exists_of_depth_tagged_record_le hlv
      simp only [forall_mem_cons] at hm
      simp [TypeKind.toJson, TypeKind.ofJson?, TypeKind.ofPayload?, Json.asRecord,
        (codec_ids fewer).read hf.1 hm.1, Json.asId_natural hf.2]
    | classType classId args =>
      obtain ⟨fewer, rfl, hm⟩ := Json.exists_of_depth_tagged_record_le hlv
      simp only [forall_mem_cons] at hm
      simp [TypeKind.toJson, TypeKind.ofJson?, TypeKind.ofPayload?, Json.asRecord,
        (codec_ids fewer).read hf.2 hm.2.1, Json.asId_natural hf.1]
  case decoded =>
    intro json kind h
    unfold TypeKind.ofJson? at h
    split at h
    case h_5 => exact TypeKind.decoded_of_ofPayload? h
    case h_6 => cases h
    all_goals
      cases h
      exact ⟨trivial, Nat.zero_le _⟩

/-- The document of a table of types is plain. -/
@[simp] theorem TypeTable.plain_toJson (table : TypeTable) : table.toJson.Plain := by
  have hk : ∀ kind : TypeKind, kind.toJson.Plain := by
    intro kind
    cases kind <;> simp [TypeKind.toJson]
  simp [toJson, hk]

/-- The ids that types hold are ids. -/
def TypeTable.IdsFit (table : TypeTable) : Prop := ∀ kind ∈ table.types, kind.IdsFit

/-- Tables of types are read as they are written. -/
theorem TypeTable.codec (levels : Nat) : Codec TypeTable.IdsFit TypeTable.toJson (TypeTable.ofJson? levels) levels := by
  refine .record (fun _ => rfl) (fun _ _ => rfl) (fun _ => rfl) (by decide) fun fewer _ => ?_
  have ht : Codec _ _ _ fewer := .list fun less _ => TypeKind.codec less
  constructor
  · intro table hft hlv
    simp only [forall_mem_cons] at hlv
    simp [ht.read hft hlv.1]
  · intro items table h
    split at h <;> simp only [bind_eq_bind, bind_eq_some_iff, Option.pure_def, Option.some.injEq, reduceCtorEq] at h
    obtain ⟨types, hf, rfl⟩ := h
    exact ⟨ht.sound hf, by simp [ht.depth_le hf]⟩

/-- The document of a literal is plain. -/
@[simp] theorem LiteralValue.plain_toJson (val : LiteralValue) : val.toJson.Plain := by
  cases val <;> simp [toJson]

/-- Literals are read as they are written. -/
theorem LiteralValue.codec : Codec (fun _ => True) LiteralValue.toJson (LiteralValue.ofJson? levels) levels := by
  cases levels with
  | zero =>
    refine .zero (fun json => ?_) fun val => ?_
    · simp [LiteralValue.ofJson?]
    · cases val <;> exact Json.depth_tagged_pos _ _
  | succ fewer =>
    constructor
    case read =>
      intro val _ _
      simp only [LiteralValue.ofJson?]
      cases val with
      | bool val => rfl
      | byte val =>
        have hr : (0 : Int) ≤ val.toNat ∧ (val.toNat : Int) ≤ 255 := by
          have := val.toNat_lt
          omega
        simp [LiteralValue.toJson, Json.natural, Json.asInteger_integer hr]
      | int val =>
        have hr : -2147483648 ≤ val.toInt ∧ val.toInt ≤ 2147483647 := ⟨val.le_toInt, Int.le_of_lt_add_one val.toInt_lt⟩
        simp [LiteralValue.toJson, Json.asInteger_integer hr]
      | uint val =>
        have hr : (0 : Int) ≤ val.toNat ∧ (val.toNat : Int) ≤ 4294967295 := by
          have := val.toNat_lt
          omega
        simp [LiteralValue.toJson, Json.natural, Json.asInteger_integer hr]
      | long val =>
        have hr : -9223372036854775808 ≤ val.toInt ∧ val.toInt ≤ 9223372036854775807 := ⟨val.le_toInt, Int.le_of_lt_add_one val.toInt_lt⟩
        simp [LiteralValue.toJson, Json.asInteger_integer hr]
      | ulong val =>
        have hr : (0 : Int) ≤ val.toNat ∧ (val.toNat : Int) ≤ 18446744073709551615 := by
          have := val.toNat_lt
          omega
        simp [LiteralValue.toJson, Json.natural, Json.asInteger_integer hr]
      | char val => simp [LiteralValue.toJson, Json.asChar]
      | string val => simp [LiteralValue.toJson]
    case decoded =>
      intro json val _
      refine ⟨trivial, ?_⟩
      cases val <;> exact Json.depth_tagged_le.mpr (Nat.zero_le _)

namespace Source

/-! ## Expressions -/

/-- An operator with one operand is found by its name. -/
@[simp] theorem UnaryOperator.asChoice_name (levels : Nat) (op : UnaryOperator) :
    Json.asChoice UnaryOperator.name UnaryOperator.all levels (.text op.name) = some op :=
  Json.asChoice_name (by decide +kernel) (by cases op <;> decide) levels

/-- An operator with two operands is found by its name. -/
@[simp] theorem BinaryOperator.asChoice_name (levels : Nat) (op : BinaryOperator) :
    Json.asChoice BinaryOperator.name BinaryOperator.all levels (.text op.name) = some op :=
  Json.asChoice_name (by decide +kernel) (by cases op <;> decide) levels

/-- A step is found by its name. -/
@[simp] theorem StepOperator.asChoice_name (levels : Nat) (op : StepOperator) :
    Json.asChoice StepOperator.name StepOperator.all levels (.text op.name) = some op :=
  Json.asChoice_name (by decide +kernel) (by cases op <;> decide) levels

/-- The side that a step stands on is found by its name. -/
@[simp] theorem Fixity.asChoice_name (levels : Nat) (fixity : Fixity) :
    Json.asChoice Fixity.name Fixity.all levels (.text fixity.name) = some fixity :=
  Json.asChoice_name (by decide +kernel) (by cases fixity <;> decide) levels

/-- The ids that every expression carries are ids. -/
def ExprInfo.IdsFit (info : ExprInfo) : Prop := IsId info.id ∧ IsId info.ty ∧ info.location.IdsFit

/-- What all expressions have in common is read as it is written. -/
theorem ExprInfo.read_ofFields? {info : ExprInfo} (hf : info.IdsFit) {levels : Nat} (hlv : info.location.toJson.depth ≤ levels) :
    ExprInfo.ofFields? levels (.natural info.id) (.natural info.ty) info.location.toJson = some info := by
  obtain ⟨hid, hty, hl⟩ := hf
  simp [ExprInfo.ofFields?, Json.asId_natural hid, Json.asId_natural hty, (Location.codec levels).read hl hlv]

/-- What was read of that fits, and is not too deep. -/
theorem ExprInfo.decoded_of_ofFields? {levels : Nat} {id ty loc : Json} {info : ExprInfo}
    (h : ExprInfo.ofFields? levels id ty loc = some info) : info.IdsFit ∧ info.location.toJson.depth ≤ levels := by
  have hn := Codec.id levels
  have hp := Location.codec levels
  simp only [ExprInfo.ofFields?, bind_eq_bind, bind_eq_some_iff, Option.pure_def, Option.some.injEq] at h
  obtain ⟨id, hid, ty, hty, loc, hl, rfl⟩ := h
  exact ⟨⟨hn.sound hid, hn.sound hty, hp.sound hl⟩, hp.depth_le hl⟩

/-- The ids that an expression holds are ids. -/
inductive Expr.IdsFit : Expr → Prop where
  | literal {info : ExprInfo} {val : LiteralValue} (hinfo : info.IdsFit) : IdsFit (.literal info val)
  | variableRef {info : ExprInfo} {id : VariableId} (hinfo : info.IdsFit) (hid : IsId id) : IdsFit (.variableRef info id)
  | functionRef {info : ExprInfo} {id : FunctionId} (hinfo : info.IdsFit) (hid : IsId id) : IdsFit (.functionRef info id)
  | unary {info : ExprInfo} {op : UnaryOperator} {opd : Expr} (hinfo : info.IdsFit) (hoperand : IdsFit opd) : IdsFit (.unary info op opd)
  | binary {info : ExprInfo} {op : BinaryOperator} {lhs rhs : Expr} (hinfo : info.IdsFit) (hlhs : IdsFit lhs)
      (hrhs : IdsFit rhs) : IdsFit (.binary info op lhs rhs)
  | count {info : ExprInfo} {op : StepOperator} {fixity : Fixity} {tgt : Expr} (hinfo : info.IdsFit)
      (htarget : IdsFit tgt) : IdsFit (.count info op fixity tgt)
  | assign {info : ExprInfo} {tgt val : Expr} (hinfo : info.IdsFit) (htarget : IdsFit tgt) (hvalue : IdsFit val) :
    IdsFit (.assign info tgt val)
  | call {info : ExprInfo} {callee : Expr} {args : List Expr} (hinfo : info.IdsFit) (hcallee : IdsFit callee)
      (harguments : ∀ arg ∈ args, IdsFit arg) : IdsFit (.call info callee args)
  | index {info : ExprInfo} {obj position : Expr} (hinfo : info.IdsFit) (hobject : IdsFit obj) (hposition : IdsFit position) :
    IdsFit (.index info obj position)
  | member {info : ExprInfo} {obj key : Expr} (hinfo : info.IdsFit) (hobject : IdsFit obj) (hkey : IdsFit key) :
    IdsFit (.member info obj key)
  | cast {info : ExprInfo} {val : Expr} {tgt : TypeId} (hinfo : info.IdsFit) (hvalue : IdsFit val) (htarget : IsId tgt) :
    IdsFit (.cast info val tgt)
  | make {info : ExprInfo} {tgt : TypeId} {args : List Expr} (hinfo : info.IdsFit) (htarget : IsId tgt)
      (harguments : ∀ arg ∈ args, IdsFit arg) : IdsFit (.make info tgt args)
  | print {info : ExprInfo} {args : List Expr} (hinfo : info.IdsFit) (harguments : ∀ arg ∈ args, IdsFit arg) : IdsFit (.print info args)
  | typeOf {info : ExprInfo} {val : Expr} (hinfo : info.IdsFit) (hvalue : IdsFit val) : IdsFit (.typeOf info val)

/-- The ids that all expressions have fit. -/
theorem Expr.IdsFit.info {expr : Expr} (h : expr.IdsFit) : expr.info.IdsFit := by
  cases h <;> assumption

/-- What an expression is, apart from what every expression carries. -/
def Expr.kindToJson : Expr → Json
  | .literal _ val => .tagged "Literal" val.toJson
  | .variableRef _ id => .tagged "Variable" (.natural id)
  | .functionRef _ id => .tagged "Function" (.natural id)
  | .unary _ op operand => .tagged "Unary" (.record [("operator", .text op.name), ("operand", operand.toJson)])
  | .binary _ op lhs rhs =>
    .tagged "Binary" (.record [("operator", .text op.name), ("lhs", lhs.toJson), ("rhs", rhs.toJson)])
  | .count _ op fixity tgt =>
    .tagged "IncDec" (.record [("operator", .text op.name), ("fixity", .text fixity.name), ("target", tgt.toJson)])
  | .assign _ tgt val => .tagged "Assign" (.record [("target", tgt.toJson), ("value", val.toJson)])
  | .call _ callee args => .tagged "Call" (.record [("callee", callee.toJson), ("arguments", .list Expr.toJson args)])
  | .index _ obj position => .tagged "Index" (.record [("object", obj.toJson), ("index", position.toJson)])
  | .member _ obj key => .tagged "Member" (.record [("object", obj.toJson), ("key", key.toJson)])
  | .cast _ val tgt => .tagged "Cast" (.record [("value", val.toJson), ("target", .natural tgt)])
  | .make _ tgt args => .tagged "Make" (.record [("target", .natural tgt), ("arguments", .list Expr.toJson args)])
  | .print _ args => .tagged "Print" (.list Expr.toJson args)
  | .typeOf _ val => .tagged "TypeOf" val.toJson

/-- Expressions are written one by one. -/
theorem exprsToJson_eq_map (exprs : List Expr) : exprsToJson exprs = exprs.map Expr.toJson := by
  induction exprs with
  | nil => rfl
  | cons expr exprs ih => rw [exprsToJson, ih, map_cons]

/-- The document of an expression holds that of its kind. -/
theorem Expr.toJson_eq (expr : Expr) : expr.toJson = expr.info.toJson expr.kindToJson := by
  cases expr <;> simp [Expr.toJson, Expr.kindToJson, Expr.info, Json.list, exprsToJson_eq_map]

/-- Expressions are read one by one. -/
theorem exprsOfJson?_eq_asList (levels : Nat) : exprsOfJson? levels = Json.asList Expr.ofJson? levels := by
  funext json
  cases levels with
  | zero => cases json <;> rfl
  | succ fewer => cases json <;> rfl

section

variable {levels : Nat}

/-- Expressions with fewer levels are written and read. -/
abbrev ExprsBelow (levels : Nat) : Prop := Json.CodecBelow Expr.IdsFit Expr.toJson Expr.ofJson? levels

/-- A list of expressions is read as it is written, if its members are. -/
theorem codec_exprs (h : ExprsBelow levels) :
    Codec (fun exprs => ∀ expr ∈ exprs, expr.IdsFit) (Json.list Expr.toJson) (exprsOfJson? levels) levels := by
  rw [exprsOfJson?_eq_asList]
  exact .list h

/-- A kind of expression is read as it is written, if what it holds is. -/
theorem read_exprOfKind? (h : ExprsBelow levels) {expr : Expr} (hf : expr.IdsFit) (hlv : expr.kindToJson.depth ≤ levels) :
    exprOfKind? levels expr.info expr.kindToJson = some expr := by
  cases hf
  case literal hi =>
    obtain ⟨fewer, rfl, hp⟩ := Json.exists_of_depth_tagged_le hlv
    simp [exprOfKind?, Expr.kindToJson, Expr.info, (LiteralValue.codec fewer).read trivial hp]
  case variableRef hi hid | functionRef hi hid =>
    obtain ⟨fewer, rfl, -⟩ := Json.exists_of_depth_tagged_le hlv
    simp [exprOfKind?, Expr.kindToJson, Expr.info, Json.asId_natural hid]
  case print hi ha =>
    obtain ⟨fewer, rfl, hp⟩ := Json.exists_of_depth_tagged_le hlv
    have hpr := codec_exprs (h.mono (Nat.le_succ fewer))
    simp [exprOfKind?, Expr.kindToJson, Expr.info, hpr.read ha hp]
  case typeOf hi hv =>
    obtain ⟨fewer, rfl, hp⟩ := Json.exists_of_depth_tagged_le hlv
    simp [exprOfKind?, Expr.kindToJson, Expr.info, (h fewer (Nat.lt_succ_self fewer)).read hv hp]
  -- the kinds that are records
  all_goals
    obtain ⟨fewer, rfl, hm⟩ := Json.exists_of_depth_tagged_record_le hlv
    have hpt := h fewer (by omega)
    have hpr := codec_exprs (h.mono (show fewer ≤ fewer + 2 by omega))
    simp_all [exprOfKind?, exprOfFields?, Json.asRecord, Expr.kindToJson, Expr.info, hpt.read, hpr.read, Json.asId_natural]

/-- An expression that carries this, and whose kind has at most so many levels. -/
def Expr.Within (levels : Nat) (info : ExprInfo) (expr : Expr) : Prop :=
  expr.info = info ∧ expr.IdsFit ∧ expr.kindToJson.depth ≤ levels

variable {info : ExprInfo} (h : ExprsBelow levels) (hi : info.IdsFit)
include h hi

/-- What is read from a kind by its name fits, and is not too deep. -/
theorem within_of_exprOfFields? {name : String} {payload : Json} {expr : Expr}
    (he : exprOfFields? levels info name payload = some expr) : expr.Within (levels + 1) info := by
  cases levels with
  | zero => cases he
  | succ fewer =>
    have hn := Codec.id fewer
    have hp := h fewer (Nat.lt_succ_self fewer)
    have hps := codec_exprs (h.mono (Nat.le_succ fewer))
    rw [exprOfFields?.eq_def] at he
    dsimp only at he
    split at he
    -- no kind has this name
    case h_10 => cases he
    all_goals
      obtain ⟨items, -, he⟩ := bind_eq_some_iff.mp he
      split at he
      -- too few fields, or too many
      case h_2 => cases he
      simp only [bind_eq_bind, bind_eq_some_iff, Option.pure_def, Option.some.injEq] at he
    · obtain ⟨op, -, opd, hop, rfl⟩ := he
      exact ⟨rfl, .unary hi (hp.sound hop), by simp [Expr.kindToJson, hp.depth_le hop]⟩
    · obtain ⟨op, -, lhs, hlhs, rhs, hrhs, rfl⟩ := he
      exact ⟨rfl, .binary hi (hp.sound hlhs) (hp.sound hrhs), by simp [Expr.kindToJson, hp.depth_le hlhs, hp.depth_le hrhs]⟩
    · obtain ⟨op, -, fixity, -, tgt, ht, rfl⟩ := he
      exact ⟨rfl, .count hi (hp.sound ht), by simp [Expr.kindToJson, hp.depth_le ht]⟩
    · obtain ⟨tgt, ht, val, hv, rfl⟩ := he
      exact ⟨rfl, .assign hi (hp.sound ht) (hp.sound hv), by simp [Expr.kindToJson, hp.depth_le ht, hp.depth_le hv]⟩
    · obtain ⟨callee, hc, args, ha, rfl⟩ := he
      exact ⟨rfl, .call hi (hp.sound hc) (hps.sound ha), by simp [Expr.kindToJson, hp.depth_le hc, hps.depth_le ha]⟩
    · obtain ⟨obj, ho, position, hpt, rfl⟩ := he
      exact ⟨rfl, .index hi (hp.sound ho) (hp.sound hpt), by simp [Expr.kindToJson, hp.depth_le ho, hp.depth_le hpt]⟩
    · obtain ⟨obj, ho, key, hkey, rfl⟩ := he
      exact ⟨rfl, .member hi (hp.sound ho) (hp.sound hkey), by simp [Expr.kindToJson, hp.depth_le ho, hp.depth_le hkey]⟩
    · obtain ⟨val, hv, tgt, ht, rfl⟩ := he
      exact ⟨rfl, .cast hi (hp.sound hv) (hn.sound ht), by simp [Expr.kindToJson, hp.depth_le hv]⟩
    · obtain ⟨tgt, ht, args, ha, rfl⟩ := he
      exact ⟨rfl, .make hi (hn.sound ht) (hps.sound ha), by simp [Expr.kindToJson, hps.depth_le ha]⟩

/-- What is read from a kind fits, and is not too deep. -/
theorem within_of_exprOfKind? {json : Json} {expr : Expr} (he : exprOfKind? levels info json = some expr) : expr.Within levels info := by
  cases levels with
  | zero => cases he
  | succ fewer =>
    have hn := Codec.id fewer
    have hpr := h fewer (Nat.lt_succ_self fewer)
    have hprs := codec_exprs (h.mono (Nat.le_succ fewer))
    rw [exprOfKind?] at he
    split at he
    case h_2 => cases he
    split at he
    -- the kinds that are records
    case h_6 => exact within_of_exprOfFields? (h.mono (Nat.le_succ fewer)) hi he
    all_goals obtain ⟨payload, hp, rfl⟩ := map_eq_some_iff.mp he
    · exact ⟨rfl, .literal hi, Json.depth_tagged_le.mpr ((LiteralValue.codec fewer).depth_le hp)⟩
    · exact ⟨rfl, .variableRef hi (hn.sound hp), Json.depth_tagged_le.mpr (Nat.zero_le _)⟩
    · exact ⟨rfl, .functionRef hi (hn.sound hp), Json.depth_tagged_le.mpr (Nat.zero_le _)⟩
    · exact ⟨rfl, .print hi (hprs.sound hp), Json.depth_tagged_le.mpr (hprs.depth_le hp)⟩
    · exact ⟨rfl, .typeOf hi (hpr.sound hp), Json.depth_tagged_le.mpr (hpr.depth_le hp)⟩

end

/-- Expressions are read as they are written. -/
theorem Expr.codec (levels : Nat) : Codec IdsFit toJson (ofJson? levels) levels := by
  -- What is decoded is not known to be an expression yet, so the induction is on the levels. A part has two or three less.
  induction levels using Nat.strongRecOn with
  | ind levels ih =>
    have he : toJson = fun expr => .record [("id", .natural expr.info.id), ("ty", .natural expr.info.ty),
        ("location", expr.info.location.toJson), ("kind", expr.kindToJson)] := funext toJson_eq
    rw [he]
    refine .record (fun _ => rfl) (fun _ _ => rfl) (fun _ => rfl) (by decide) ?_
    rintro fewer rfl
    have hb : ExprsBelow fewer := fun less hls => ih less (Nat.lt_succ_of_lt hls)
    constructor
    · intro expr hf hlv
      simp only [forall_mem_cons] at hlv
      obtain ⟨-, -, hl, hk, -⟩ := hlv
      simp [ExprInfo.read_ofFields? hf.info hl, read_exprOfKind? hb hf hk]
    · intro items expr h
      split at h
      · obtain ⟨info, hfl, hk⟩ := bind_eq_some_iff.mp h
        obtain ⟨hi, hl⟩ := ExprInfo.decoded_of_ofFields? hfl
        obtain ⟨rfl, hf, hd⟩ := within_of_exprOfKind? hb hi hk
        exact ⟨hf, by simp [hl, hd]⟩
      · cases h

mutual

/-- The document of an expression is plain. -/
theorem Expr.plain_toJson : (expr : Expr) → expr.toJson.Plain
  | .literal .. | .variableRef .. | .functionRef .. => by simp [Expr.toJson, ExprInfo.toJson]
  | .unary info op opd => by simp [Expr.toJson, ExprInfo.toJson, opd.plain_toJson]
  | .binary info op lhs rhs => by simp [Expr.toJson, ExprInfo.toJson, lhs.plain_toJson, rhs.plain_toJson]
  | .count info op fixity tgt => by simp [Expr.toJson, ExprInfo.toJson, tgt.plain_toJson]
  | .assign info tgt val => by simp [Expr.toJson, ExprInfo.toJson, tgt.plain_toJson, val.plain_toJson]
  | .call info callee args => by
    simpa [Expr.toJson, ExprInfo.toJson, callee.plain_toJson] using plain_exprsToJson args
  | .index info obj position => by simp [Expr.toJson, ExprInfo.toJson, obj.plain_toJson, position.plain_toJson]
  | .member info obj key => by simp [Expr.toJson, ExprInfo.toJson, obj.plain_toJson, key.plain_toJson]
  | .cast _ val _ | .typeOf _ val => by simp [Expr.toJson, ExprInfo.toJson, val.plain_toJson]
  | .make _ _ args | .print _ args => by simpa [Expr.toJson, ExprInfo.toJson] using plain_exprsToJson args

/-- The documents of expressions are plain. -/
theorem plain_exprsToJson : (exprs : List Expr) → ∀ json ∈ exprsToJson exprs, json.Plain
  | [] => by simp [exprsToJson]
  | expr :: exprs => by
    rw [exprsToJson, forall_mem_cons]
    exact ⟨expr.plain_toJson, plain_exprsToJson exprs⟩

end

/-- No expression is written as null. -/
theorem Expr.toJson_ne_null (expr : Expr) : expr.toJson ≠ .null := by
  rw [toJson_eq]
  exact Json.record_ne_null _

/-! ## Statements -/

/-- The ids that a statement holds are ids. -/
inductive Stmt.IdsFit : Stmt → Prop where
  | block {loc : Location} {stmts : List Stmt} (hlocation : loc.IdsFit)
      (hstatements : ∀ statement ∈ stmts, IdsFit statement) : IdsFit (.block loc stmts)
  | branch {loc : Location} {cond : Expr} {pos : Stmt} {neg : Option Stmt} (hlocation : loc.IdsFit)
      (hcondition : cond.IdsFit) (hpositive : IdsFit pos) (hnegative : ∀ statement ∈ neg, IdsFit statement) :
    IdsFit (.branch loc cond pos neg)
  | whileLoop {loc : Location} {cond : Expr} {body : Stmt} (hlocation : loc.IdsFit) (hcondition : cond.IdsFit)
      (hbody : IdsFit body) : IdsFit (.whileLoop loc cond body)
  | doLoop {loc : Location} {body : Stmt} {cond : Expr} {negated : Bool} (hlocation : loc.IdsFit)
      (hbody : IdsFit body) (hcondition : cond.IdsFit) : IdsFit (.doLoop loc body cond negated)
  | breakLoop {loc : Location} (hlocation : loc.IdsFit) : IdsFit (.breakLoop loc)
  | returnValue {loc : Location} {val : Option Expr} (hlocation : loc.IdsFit)
      (hvalue : ∀ expr ∈ val, expr.IdsFit) : IdsFit (.returnValue loc val)
  | expression {loc : Location} {val : Expr} (hlocation : loc.IdsFit) (hvalue : val.IdsFit) : IdsFit (.expression loc val)

/-- The position of a statement fits. -/
theorem Stmt.IdsFit.location {stmt : Stmt} (h : stmt.IdsFit) : stmt.location.IdsFit := by
  cases h <;> assumption

/-- What a statement is, apart from its position. -/
def Stmt.kindToJson : Stmt → Json
  | .block _ stmts => .tagged "Block" (.list Stmt.toJson stmts)
  | .branch _ cond positive negative =>
    .tagged "If" (.record [("condition", cond.toJson), ("positive", positive.toJson), ("negative", .nullable Stmt.toJson negative)])
  | .whileLoop _ cond body => .tagged "While" (.record [("condition", cond.toJson), ("body", body.toJson)])
  | .doLoop _ body cond negated =>
    .tagged "Do" (.record [("body", body.toJson), ("condition", cond.toJson), ("negated", .bool negated)])
  | .breakLoop _ => .text "Break"
  | .returnValue _ val => .tagged "Return" (.nullable Expr.toJson val)
  | .expression _ val => .tagged "Expression" val.toJson

/-- Statements are written one by one. -/
theorem stmtsToJson_eq_map (stmts : List Stmt) : stmtsToJson stmts = stmts.map Stmt.toJson := by
  induction stmts with
  | nil => rfl
  | cons stmt stmts ih => rw [stmtsToJson, ih, map_cons]

/-- A statement that is missing is written as null. -/
theorem optionalStmtToJson_eq (found : Option Stmt) : optionalStmtToJson found = .nullable Stmt.toJson found := by
  cases found <;> rfl

/-- The document of a statement holds that of its kind. -/
theorem Stmt.toJson_eq (stmt : Stmt) : stmt.toJson = stmtToJson stmt.location stmt.kindToJson := by
  cases stmt <;>
    simp [Stmt.toJson, Stmt.kindToJson, Stmt.location, Json.list, stmtsToJson_eq_map, optionalStmtToJson_eq]

/-- No statement is written as null. -/
theorem Stmt.toJson_ne_null (stmt : Stmt) : stmt.toJson ≠ .null := by
  rw [toJson_eq]
  exact Json.record_ne_null _

/-- Statements are read one by one. -/
theorem stmtsOfJson?_eq_asList (levels : Nat) : stmtsOfJson? levels = Json.asList Stmt.ofJson? levels := by
  funext json
  cases levels with
  | zero => cases json <;> rfl
  | succ fewer => cases json <;> rfl

section

variable {levels : Nat}

/-- Statements with fewer levels are written and read. -/
abbrev StmtsBelow (levels : Nat) : Prop := Json.CodecBelow Stmt.IdsFit Stmt.toJson Stmt.ofJson? levels

/-- A list of statements is read as it is written, if its members are. -/
theorem codec_stmts (h : StmtsBelow levels) :
    Codec (fun stmts => ∀ stmt ∈ stmts, stmt.IdsFit) (Json.list Stmt.toJson) (stmtsOfJson? levels) levels := by
  rw [stmtsOfJson?_eq_asList]
  exact .list h

variable {stmt : Stmt}

/-- A kind of statement is read as it is written, if what it holds is. -/
theorem read_stmtOfKind? (h : StmtsBelow levels) (hf : stmt.IdsFit) (hlv : stmt.kindToJson.depth ≤ levels) :
    stmtOfKind? levels stmt.location stmt.kindToJson = some stmt := by
  cases hf
  case block hl hs =>
    obtain ⟨fewer, rfl, hp⟩ := Json.exists_of_depth_tagged_le hlv
    have hprs := codec_stmts (h.mono (Nat.le_succ fewer))
    simp [stmtOfKind?, Stmt.kindToJson, Stmt.location, hprs.read hs hp]
  case breakLoop => cases levels <;> rfl
  case returnValue hl hv =>
    obtain ⟨fewer, rfl, hp⟩ := Json.exists_of_depth_tagged_le hlv
    have ho := (Expr.codec fewer).option Expr.toJson_ne_null
    simp [stmtOfKind?, Stmt.kindToJson, Stmt.location, ho.read hv hp]
  case expression hl hv =>
    obtain ⟨fewer, rfl, hp⟩ := Json.exists_of_depth_tagged_le hlv
    simp [stmtOfKind?, Stmt.kindToJson, Stmt.location, (Expr.codec fewer).read hv hp]
  -- the kinds that are records
  all_goals
    obtain ⟨fewer, rfl, hm⟩ := Json.exists_of_depth_tagged_record_le hlv
    have hpr := h fewer (by omega)
    have ho := hpr.option Stmt.toJson_ne_null
    simp_all [stmtOfKind?, stmtOfFields?, branchFields, Json.asRecord, Stmt.kindToJson, Stmt.location, (Expr.codec fewer).read,
      hpr.read, ho.read]

/-- A statement at this position, and whose kind has at most so many levels. -/
def Stmt.Within (levels : Nat) (loc : Location) (stmt : Stmt) : Prop :=
  stmt.location = loc ∧ stmt.IdsFit ∧ stmt.kindToJson.depth ≤ levels

variable {loc : Location} (h : StmtsBelow levels) (hl : loc.IdsFit)
include h hl

/-- What is read from a kind by its name fits, and is not too deep. -/
theorem within_of_stmtOfFields? {name : String} {payload : Json}
    (hs : stmtOfFields? levels loc name payload = some stmt) : stmt.Within (levels + 1) loc := by
  cases levels with
  | zero => cases hs
  | succ fewer =>
    have he := Expr.codec fewer
    have hp := h fewer (Nat.lt_succ_self fewer)
    rw [stmtOfFields?.eq_def] at hs
    dsimp only at hs
    split at hs
    case h_4 => cases hs
    all_goals
      obtain ⟨items, -, hs⟩ := bind_eq_some_iff.mp hs
      split at hs
      -- too few fields, or too many
      case h_2 => cases hs
      simp only [bind_eq_bind, bind_eq_some_iff, Option.pure_def, Option.some.injEq] at hs
    · have ho := hp.option Stmt.toJson_ne_null
      obtain ⟨cond, hc, pos, hps, neg, hn, rfl⟩ := hs
      exact ⟨rfl, .branch hl (he.sound hc) (hp.sound hps) (ho.sound hn),
        by simp [Stmt.kindToJson, he.depth_le hc, hp.depth_le hps, ho.depth_le hn]⟩
    · obtain ⟨cond, hc, body, hb, rfl⟩ := hs
      exact ⟨rfl, .whileLoop hl (he.sound hc) (hp.sound hb), by simp [Stmt.kindToJson, he.depth_le hc, hp.depth_le hb]⟩
    · obtain ⟨body, hb, cond, hc, negated, -, rfl⟩ := hs
      exact ⟨rfl, .doLoop hl (hp.sound hb) (he.sound hc), by simp [Stmt.kindToJson, he.depth_le hc, hp.depth_le hb]⟩

/-- What is read from a kind fits, and is not too deep. -/
theorem within_of_stmtOfKind? {json : Json} (hs : stmtOfKind? levels loc json = some stmt) : stmt.Within levels loc := by
  have hb : (Stmt.breakLoop loc).Within levels loc := ⟨rfl, .breakLoop hl, Nat.zero_le _⟩
  cases levels with
  | zero =>
    rw [stmtOfKind?] at hs
    split at hs
    · cases hs
      exact hb
    · cases hs
  | succ fewer =>
    have he := Expr.codec fewer
    have ho := he.option Expr.toJson_ne_null
    have hpr := codec_stmts (h.mono (Nat.le_succ fewer))
    rw [stmtOfKind?] at hs
    split at hs
    · cases hs
      exact hb
    · cases hs
      exact hb
    · split at hs
      case h_4 => exact within_of_stmtOfFields? (h.mono (Nat.le_succ fewer)) hl hs
      all_goals obtain ⟨payload, hp, rfl⟩ := map_eq_some_iff.mp hs
      · exact ⟨rfl, .block hl (hpr.sound hp), Json.depth_tagged_le.mpr (hpr.depth_le hp)⟩
      · exact ⟨rfl, .returnValue hl (ho.sound hp), Json.depth_tagged_le.mpr (ho.depth_le hp)⟩
      · exact ⟨rfl, .expression hl (he.sound hp), Json.depth_tagged_le.mpr (he.depth_le hp)⟩
    · cases hs

end

/-- Statements are read as they are written. -/
theorem Stmt.codec (levels : Nat) : Codec IdsFit toJson (ofJson? levels) levels := by
  induction levels using Nat.strongRecOn with
  | ind levels ih =>
    have he : toJson = fun stmt => .record [("kind", stmt.kindToJson), ("location", stmt.location.toJson)] := funext toJson_eq
    rw [he]
    refine .record (fun _ => rfl) (fun _ _ => rfl) (fun _ => rfl) (by decide) ?_
    rintro fewer rfl
    have hb : StmtsBelow fewer := fun less hls => ih less (Nat.lt_succ_of_lt hls)
    have hp := Location.codec fewer
    constructor
    · intro stmt hf hlv
      simp only [forall_mem_cons] at hlv
      obtain ⟨hk, hl, -⟩ := hlv
      simp [hp.read hf.location hl, read_stmtOfKind? hb hf hk]
    · intro items stmt h
      split at h
      · obtain ⟨loc, hl, hk⟩ := bind_eq_some_iff.mp h
        obtain ⟨rfl, hf, hd⟩ := within_of_stmtOfKind? hb (hp.sound hl) hk
        exact ⟨hf, by simp [hp.depth_le hl, hd]⟩
      · cases h

mutual

/-- The document of a statement is plain. -/
theorem Stmt.plain_toJson : (stmt : Stmt) → stmt.toJson.Plain
  | .block loc stmts => by simpa [Stmt.toJson, stmtToJson] using plain_stmtsToJson stmts
  | .branch loc cond pos neg => by
    simp [Stmt.toJson, stmtToJson, cond.plain_toJson, pos.plain_toJson, plain_optionalStmtToJson neg]
  | .whileLoop _ cond body | .doLoop _ body cond _ => by
    simp [Stmt.toJson, stmtToJson, cond.plain_toJson, body.plain_toJson]
  | .breakLoop loc => by simp [Stmt.toJson, stmtToJson]
  | .returnValue loc val => by simp [Stmt.toJson, stmtToJson, Expr.plain_toJson]
  | .expression loc val => by simp [Stmt.toJson, stmtToJson, val.plain_toJson]

/-- So is that of a statement that may be missing. -/
theorem plain_optionalStmtToJson : (found : Option Stmt) → (optionalStmtToJson found).Plain
  | none => .null
  | some stmt => stmt.plain_toJson

/-- The documents of statements are plain. -/
theorem plain_stmtsToJson : (stmts : List Stmt) → ∀ json ∈ stmtsToJson stmts, json.Plain
  | [] => by simp [stmtsToJson]
  | statement :: stmts => by
    rw [stmtsToJson, forall_mem_cons]
    exact ⟨statement.plain_toJson, plain_stmtsToJson stmts⟩

end

end Source

end TagAsm
