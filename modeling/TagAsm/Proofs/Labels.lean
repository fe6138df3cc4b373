import TagAsm.Proofs.Emission

/-!
# The labels of emitted code

The code of a subroutine defines its symbol, a label for each of its phases, one for each block, and one for each line that the
debug tables list; apart from the symbol they all carry the symbol within them. The code of an initializer and the code that
starts the process define one symbol each.
-/

namespace TagAsm.Asm

/-- The name that a line of a section defines. -/
def Item.label? : Item → Option String
  | .label name => some name
  | _ => none

/-- The names that the lines of a section define, in order. -/
def labels (items : List Item) : List String := items.filterMap Item.label?

@[simp] theorem labels_nil : labels [] = [] := rfl

@[simp] theorem labels_append (first rest : List Item) : labels (first ++ rest) = labels first ++ labels rest := List.filterMap_append ..

@[simp] theorem labels_label_cons (name : String) (rest : List Item) : labels (.label name :: rest) = name :: labels rest := rfl

@[simp] theorem labels_exported_cons (name : String) (rest : List Item) : labels (.exported name :: rest) = labels rest := rfl

@[simp] theorem labels_comment_cons (text : String) (rest : List Item) : labels (.comment text :: rest) = labels rest := rfl

theorem mem_labels {items : List Item} {name : String} : name ∈ labels items ↔ Item.label name ∈ items := by
  unfold labels
  rw [List.mem_filterMap]
  constructor
  · rintro ⟨item, hi, hn⟩
    cases item with
    | label found =>
      cases hn
      exact hi
    | _ => cases hn
  · intro h
    exact ⟨.label name, h, rfl⟩

end TagAsm.Asm

namespace TagAsm.Select

open Asm Abi SelectM List
open TagAsm.Flow (SubroutineId BlockId Block Body ClassLayout)

theorem Steps.labels {items : List Item} (h : Steps items) : labels items = [] := by
  rw [Asm.labels, filterMap_eq_nil_iff]
  intro item hi
  obtain ⟨op, rfl, -⟩ := h item hi
  rfl

@[simp] theorem labels_code (ops : List Instruction) : labels (Item.code ops) = [] := by
  rw [labels, filterMap_eq_nil_iff]
  intro item hi
  obtain ⟨op, -, rfl⟩ := mem_map.mp hi
  rfl

/-! ## Roles -/

/-- Whether a statement has a label of its own. -/
def isMarked (cx : Context) (sym : String) (entry : Flow.Statement × Nat) : Bool :=
  cx.debugInfo && (DebugTables.lineEntry? (lineLabel sym entry.2) entry.1.location).isSome

/-- The roles of the labels of numbered statements. -/
def lineRoles (cx : Context) (sym : String) (stmts : List (Flow.Statement × Nat)) : List String :=
  (stmts.filter (isMarked cx sym)).map fun entry => "line" ++ toString entry.2

/-- The roles of the labels of phases. -/
def phaseRoles : List String := ["entry", "copy", "init", "deinit", "epilogue", "exit"]

/-- The roles of all labels within a subroutine: those of phases, of blocks, and of lines. -/
def routineRoles (cx : Context) (sym : String) (body : Body) : List String :=
  phaseRoles ++ body.blocks.ids.map (fun id => "bb" ++ toString id) ++ lineRoles cx sym (bodyStatements body).zipIdx

/-- A symbol, and the labels with these roles in its code. -/
def ownLabels (sym : String) (roles : List String) : List String := sym :: roles.map (localLabel sym)

/-- All labels of a subroutine. -/
def routineLabels (cx : Context) (sym : String) (body : Body) : List String :=
  ownLabels sym (routineRoles cx sym body)

theorem lineRoles_append (cx : Context) (sym : String) (first rest : List (Flow.Statement × Nat)) :
    lineRoles cx sym (first ++ rest) = lineRoles cx sym first ++ lineRoles cx sym rest := by
  simp [lineRoles]

variable {cx : Context} {sym role : String}

theorem mem_lineRoles {stmts : List (Flow.Statement × Nat)} (h : role ∈ lineRoles cx sym stmts) :
    ∃ num : Nat, role = "line" ++ toString num := by
  obtain ⟨entry, -, rfl⟩ := mem_map.mp h
  exact ⟨entry.2, rfl⟩

theorem dot_not_mem_role {body : Body} (h : role ∈ routineRoles cx sym body) : '.' ∉ role.toList := by
  rcases mem_append.mp h with h | h
  · rcases mem_append.mp h with h | h
    · have hp : ∀ role ∈ phaseRoles, '.' ∉ role.toList := by decide
      exact hp role h
    · obtain ⟨id, -, rfl⟩ := mem_map.mp h
      rw [String.toList_append, mem_append, not_or]
      exact ⟨by decide, dot_not_mem_toString id⟩
  · obtain ⟨num, rfl⟩ := mem_lineRoles h
    rw [String.toList_append, mem_append, not_or]
    exact ⟨by decide, dot_not_mem_toString num⟩

theorem nodup_lineRoles (cx : Context) (sym : String) (stmts : List Flow.Statement) : (lineRoles cx sym stmts.zipIdx).Nodup := by
  have hn : ((stmts.zipIdx.filter (isMarked cx sym)).map Prod.snd).Nodup := by
    have hall : (stmts.zipIdx.map Prod.snd).Nodup := by
      rw [zipIdx_map_snd]
      exact nodup_range'
    exact hall.sublist (filter_sublist.map Prod.snd)
  have hi : Function.Injective fun num : Nat => "line" ++ toString num :=
    fun a b h => toString_nat_inj.mp ((String.append_right_inj _).mp h)
  have hr := hn.map hi
  rwa [map_map] at hr

theorem nodup_routineRoles (cx : Context) (sym : String) (body : Body) : (routineRoles cx sym body).Nodup := by
  have hbs : (body.blocks.ids.map fun id => "bb" ++ toString id).Nodup :=
    nodup_range.map fun a b h => toString_nat_inj.mp ((String.append_right_inj _).mp h)
  -- phases, blocks and lines are told apart by their first letters
  have hps : ∀ role ∈ phaseRoles, role.toList.head? ≠ some 'b' ∧ role.toList.head? ≠ some 'l' := by decide
  have hb : ∀ id : Nat, ("bb" ++ toString id).toList.head? = some 'b' := fun id => by rw [String.toList_append]; rfl
  have hl : ∀ num : Nat, ("line" ++ toString num).toList.head? = some 'l' := fun num => by rw [String.toList_append]; rfl
  unfold routineRoles
  rw [nodup_append', nodup_append']
  refine ⟨⟨by decide, hbs, ?_⟩, nodup_lineRoles cx sym _, ?_⟩
  · intro role hp hmem
    obtain ⟨id, -, rfl⟩ := mem_map.mp hmem
    exact (hps _ hp).1 (hb id)
  · intro role hr hmem
    obtain ⟨num, rfl⟩ := mem_lineRoles hmem
    rcases mem_append.mp hr with hp | hr
    · exact (hps _ hp).2 (hl num)
    · obtain ⟨id, -, heq⟩ := mem_map.mp hr
      have hh := congrArg (fun role : String => role.toList.head?) heq
      rw [hb, hl] at hh
      exact absurd hh (by decide)

/-- With different roles, the labels in the code of a symbol are different. -/
theorem nodup_ownLabels (hs : IsGlobal sym) {roles : List String} (hr : roles.Nodup) : (ownLabels sym roles).Nodup := by
  refine nodup_cons.mpr ⟨fun hmem => ?_, hr.map fun a b h => localLabel_inj.mp h⟩
  obtain ⟨role, -, heq⟩ := mem_map.mp hmem
  exact hs.ne_localLabel sym role heq.symm

/-- The code of different symbols has no label in common. -/
theorem disjoint_ownLabels {other : String} (hs : IsGlobal sym) (ho : IsGlobal other) (hne : sym ≠ other)
    {roles roles' : List String} (hrs : ∀ role ∈ roles, '.' ∉ role.toList) (hrs' : ∀ role ∈ roles', '.' ∉ role.toList) :
    (ownLabels sym roles).Disjoint (ownLabels other roles') := by
  intro name hn hn'
  rcases mem_cons.mp hn with rfl | hn
  · rcases mem_cons.mp hn' with heq | hn'
    · exact hne heq
    · obtain ⟨role, -, heq⟩ := mem_map.mp hn'
      exact hs.ne_localLabel other role heq.symm
  · obtain ⟨role, hr, rfl⟩ := mem_map.mp hn
    rcases mem_cons.mp hn' with heq | hn'
    · exact ho.ne_localLabel sym role heq.symm
    · obtain ⟨role', hr', heq⟩ := mem_map.mp hn'
      exact hne (localLabel_inj_of_dotless (hrs role hr) (hrs' role' hr') heq.symm).1

/-! ## Blocks -/

section

variable (cx : Context) (rt : Routine)

theorem statementCode_labels (num : Nat) (stmt : Flow.Statement) : Yields (statementCode cx rt num stmt) (fun items =>
      labels items = (lineRoles cx rt.symbol [(stmt, num)]).map (localLabel rt.symbol)) := by
  refine .next fun text => .bind (actionCodeOrError_steps cx rt stmt) fun code hc => .pure ?_
  rw [labels_append, labels_append, hc.labels, append_nil]
  have hl : statementLabel cx rt.symbol num stmt =
      if isMarked cx rt.symbol (stmt, num) then [.label (lineLabel rt.symbol num)] else [] := rfl
  rw [hl, lineRoles]
  by_cases hm : isMarked cx rt.symbol (stmt, num) = true
  · rw [filter_cons_of_pos hm, if_pos hm]
    rfl
  · rw [filter_cons_of_neg hm, if_neg hm]
    rfl

theorem statements_labels (stmts : List (Flow.Statement × Nat)) :
    Yields (collect (fun (stmt, num) => statementCode cx rt num stmt) stmts) (fun items =>
      labels items = (lineRoles cx rt.symbol stmts).map (localLabel rt.symbol)) := by
  induction stmts with
  | nil => exact .pure rfl
  | cons entry rest ih =>
    refine .bind (statementCode_labels cx rt entry.2 entry.1) fun first hf => .bind ih fun others ho => .pure ?_
    rw [labels_append, hf, ho, ← map_append, ← lineRoles_append]
    rfl

theorem terminatorCode_labels (term : Flow.Terminator) : Yields (terminatorCode rt term) (fun items => labels items = []) := by
  cases term with
  | branch cond pos neg =>
    refine .next fun _ => .bind (callHelper_yields _ _ _) fun unwrap hu => .pure ?_
    rw [labels_append, hu, (steps_callDirect _ _ _).labels, labels_code]
    rfl
  | jump | sink => exact .pure (labels_code _)

/-- Blocks define their labels, and those of the lines of their statements. -/
theorem blocksCode_labels (start : Nat) (entries : List (BlockId × Block)) :
    Yields (blocksCode cx rt start entries) (fun items => (labels items).Perm ((entries.map fun entry => blockLabel rt.symbol entry.1)
        ++ (lineRoles cx rt.symbol ((entries.flatMap fun entry => entry.2.statements).zipIdx start)).map (localLabel rt.symbol))) := by
  induction entries generalizing start with
  | nil => exact .pure (by simp [lineRoles])
  | cons entry rest ih =>
    obtain ⟨id, block⟩ := entry
    have hb : Yields (blockCode cx rt id block start) (fun items => labels items = blockLabel rt.symbol id ::
        (lineRoles cx rt.symbol (block.statements.zipIdx start)).map (localLabel rt.symbol)) := by
      rw [blockCode_eq]
      refine .bind (statements_labels cx rt _) fun stmts hs => ?_
      refine .bind (terminatorCode_labels rt _) fun term ht => .pure ?_
      rw [labels_label_cons, labels_append, hs, ht, append_nil]
    refine .bind hb fun first hf => .bind (ih _) fun others ho => .pure ?_
    rw [labels_append, hf]
    refine (Perm.append_left _ ho).trans ?_
    -- the lines of this block come before the labels of the other blocks
    rw [flatMap_cons, zipIdx_append, lineRoles_append, map_append, map_cons, cons_append, cons_append]
    exact (perm_append_comm_assoc _ _ _).cons _

end

/-! ## Subroutines, initializers, and the start of the process -/

/-- The statements of a body, block by block. -/
theorem flatMap_statements_entries (body : Body) :
    (body.blocks.entries.flatMap fun entry => entry.2.statements) = bodyStatements body := by
  calc (body.blocks.entries.flatMap fun entry => entry.2.statements)
      = (body.blocks.entries.map Prod.snd).flatMap (·.statements) := (flatMap_map ..).symm
    _ = bodyStatements body := by
      rw [Table.map_snd_entries]
      rfl

/-- The labels of a subroutine are defined in its code, each once. -/
theorem subroutineCode_labels (cx : Context) (id : SubroutineId) (sub : Flow.Subroutine) (body : Body) (sym : String) :
    Yields (subroutineCode cx id sub body sym) (fun res =>
      (labels res.1).Perm (routineLabels cx sym body)) := by
  refine .next fun exit => .next fun words => .bind (copyCode_steps cx _ _) fun ⟨copy, frame⟩ hc =>
    .bind (defaults_steps cx frame body _) fun defaults hd =>
    .bind (blocksCode_labels cx ⟨id, sym, body, frame, (layoutOf body words).scratch⟩ 0 _) fun blocks hb =>
    .bind (dropCode_steps cx frame _) fun drops hdr =>
    .bind (exitItems_yields cx _ _ _) fun leave hl => .pure ?_
  obtain ⟨entering, he, hen⟩ := steps_entryCode sym (layoutOf body words)
  obtain ⟨leaving, hlv, rfl⟩ := hl
  have hids : (body.blocks.entries.map fun entry => blockLabel sym entry.1) =
      (body.blocks.ids.map fun id => "bb" ++ toString id).map (localLabel sym) := by
    rw [← Table.map_fst_entries, map_map, map_map]
    rfl
  rw [hids, flatMap_statements_entries, ← map_append] at hb
  -- the labels of the last phases move in front of those of the blocks
  have hi : labels (entryCode sym (layoutOf body words) ++ [.label (localLabel sym "copy")] ++ copy
      ++ [.label (localLabel sym "init")] ++ defaults ++ blocks ++ [.label (localLabel sym "deinit")] ++ drops
      ++ [.label (localLabel sym "epilogue")]
      ++ (leaving ++ Item.code (if exit.endsProcess then Instruction.exitProcess else [.ret]))
      ++ [.label (localLabel sym "exit")])
      = (sym :: ["entry", "copy", "init"].map (localLabel sym))
        ++ (labels blocks ++ ["deinit", "epilogue", "exit"].map (localLabel sym)) := by
    simp [hen, he.labels, hc.labels, hd.labels, hdr.labels, hlv.labels]
  rw [hi]
  refine (List.Perm.append_left _ perm_append_comm).trans ?_
  refine (List.Perm.append_left _ (List.Perm.append_left _ hb)).trans (List.Perm.of_eq ?_)
  simp [routineLabels, ownLabels, routineRoles, phaseRoles]

theorem initializerCode_labels (cx : Context) (decl : ClassLayout) (sym : String) :
    Yields (initializerCode cx decl sym) (fun items => labels items = [sym]) := by
  refine (initializerCode_pieced decl sym).mono fun items hi => ?_
  obtain ⟨pieces, rfl⟩ := hi
  simp [(steps_piecesCode _ pieces).labels]

/-- The code that starts the process defines the symbol for that. -/
theorem startCode_labels (sym : String) : Yields (startCode sym) (fun items => labels items = [startSymbol]) := by
  refine (startCode_pieced sym).mono fun items hi => ?_
  obtain ⟨pieces, rfl⟩ := hi
  rw [labels_append, labels_append, (steps_piecesCode _ pieces).labels]
  rfl

end TagAsm.Select
