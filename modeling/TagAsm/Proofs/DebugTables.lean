import TagAsm.Proofs.DebugInfo
import TagAsm.Proofs.Reporting
import TagAsm.Proofs.StringData

/-!
# The debug tables describe the code

With each subroutine that is emitted, the debug tables get an entry for its extent and its variables, and an entry for each of its
statements whose position is known. Nothing else enters them, so in the end they list what the text holds and no more: the labels of
lines in the order of the text, and the subroutines in the order of the text, with names that the table of names has.
-/

namespace TagAsm.Select

open Asm Abi SelectM List
open TagAsm.Flow (SubroutineId ValueId Body)

/-! ## What the tables are to describe -/

/-- A subroutine that was emitted. -/
structure Committed where
  id : SubroutineId
  name : String
  symbol : String
  body : Body
  /-- The slots once the parameters have been copied. -/
  frame : Frame
  items : List Item

/-- The code was made from the subroutine with that id, and it uses that frame. -/
structure Committed.Of (cx : Context) (committed : Committed) : Prop where
  selected : ∃ sub before after, cx.program.subroutines[committed.id]? = some sub ∧ sub.kind = .defined committed.body ∧
    (subroutineCode cx committed.id sub committed.body committed.symbol).run.run before
      = .ok (.ok (committed.items, committed.frame), after)
  name_eq : cx.program.subroutineName committed.id = .ok committed.name
  frame_eq : ∃ words, scratchWords cx.program committed.body = .ok words ∧
    committed.frame = withRecords (layoutOf committed.body words).frame (layoutOf committed.body words).records

/-- A stretch of a text: the code of a subroutine, or of an initializer or the start of the process. -/
inductive Stretch where
  | subroutine (committed : Committed)
  | other (items : List Item)

namespace Stretch

/-- The lines of a stretch. -/
def items : Stretch → List Item
  | .subroutine committed => committed.items
  | .other items => items

/-- The subroutine whose code a stretch is. -/
def committed? : Stretch → Option Committed
  | .subroutine committed => some committed
  | .other _ => none

/-- Where the code of a stretch comes from. -/
def Of (cx : Context) : Stretch → Prop
  | .subroutine committed => committed.Of cx
  | .other items => ∃ before after, (∃ decl sym, (initializerCode cx decl sym).run.run before = .ok (.ok items, after)) ∨
      ∃ sym, (startCode sym).run.run before = .ok (.ok items, after)

end Stretch

/-- The subroutines in a text, in order. -/
def committedIn (stretches : List Stretch) : List Committed := stretches.filterMap Stretch.committed?

/-- The numbered statements of a subroutine whose positions are known. -/
def Committed.placedStatements (committed : Committed) : List (Flow.Statement × Nat) :=
  (bodyStatements committed.body).zipIdx.filter fun entry => entry.1.location.isKnown

/-- The numbered statements in a text whose positions are known, each with its subroutine. -/
def placedStatements (stretches : List Stretch) : List (Committed × Flow.Statement × Nat) :=
  (committedIn stretches).flatMap fun committed => committed.placedStatements.map (committed, ·)

/-- The name of a value that has one. -/
def valueName? (body : Body) (id : ValueId) : Option String := (body.values[id]?.bind (·.symbol)).map (·.name)

/-- The parameters of a body and then its locals, in the order of their declaration, as far as they have names. -/
def namedVariables (body : Body) : List (ValueId × VariableRole) :=
  (body.parameters.map (·, VariableRole.parameter) ++ body.locals.map (·, VariableRole.localVariable)).filter fun entry =>
    (valueName? body entry.1).isSome

/-- The entry of the table of lines for a statement. -/
structure LineOf (placed : Committed × Flow.Statement × Nat) (entry : LineEntry) : Prop where
  label_eq : entry.label = lineLabel placed.1.symbol placed.2.2
  file_eq : placed.2.1.location.file = some entry.file
  line_eq : placed.2.1.location.line = entry.line

/-- The entry of a variable: its role, its place, and its name in the table of names. -/
structure VariableOf (names : List String) (committed : Committed) (named : ValueId × VariableRole) (entry : VariableEntry) : Prop where
  role_eq : entry.role = named.2
  offset_eq : ∃ slot, committed.frame.slot? named.1 = some slot ∧ entry.offset = slot.offset
  name_eq : ∃ name, valueName? committed.body named.1 = some name ∧ names[entry.name]? = some name

/-- The entry of a subroutine: its code lies between two labels, its name is in the table of names, and its named variables are
listed. -/
structure InfoOf (names : List String) (committed : Committed) (info : InfoEntry) : Prop where
  start_eq : info.start = localLabel committed.symbol "entry"
  stop_eq : info.stop = localLabel committed.symbol "exit"
  encloses : ∃ code, committed.items = Item.exportedLabel committed.symbol ++ .label info.start :: code ++ [.label info.stop]
  name_eq : names[info.name]? = some committed.name
  places : List.Forall₂ (VariableOf names committed) (namedVariables committed.body) info.places

/-- Debug tables that describe a text, which is made up of these stretches. -/
structure Describes (cx : Context) (stretches : List Stretch) (text : List Item) (tables : DebugTables) : Prop where
  text_eq : text = stretches.flatMap Stretch.items
  stretches_of : ∀ stretch ∈ stretches, stretch.Of cx
  marks : List.Forall₂ (fun placed mark => MarksStatement cx placed.1.symbol placed.1.body placed.2 mark)
    (placedStatements stretches) (lineMarks text)
  lines : List.Forall₂ LineOf (placedStatements stretches) tables.lines
  infos : List.Forall₂ (InfoOf tables.strings) (committedIn stretches) tables.infos

/-! ## Names -/

variable {names : List String}

/-- A name stays where it is when names are added. -/
theorem getElem?_append_of_eq_some {place : Nat} {name : String} (h : names[place]? = some name) (more : List String) :
    (names ++ more)[place]? = some name := by
  rw [getElem?_append_left (List.getElem?_eq_some_iff.mp h).1, h]

/-- A name gets the number under which the table of names has it. -/
theorem string_spec (tables : DebugTables) (name : String) : ∃ more,
    (tables.string name).2 = { tables with strings := tables.strings ++ more } ∧
      (tables.strings ++ more)[(tables.string name).1]? = some name := by
  unfold DebugTables.string
  split
  · rename_i place hp
    obtain ⟨hlt, hn, -⟩ := findIdx?_eq_some_iff_getElem.mp hp
    refine ⟨[], by rw [append_nil], ?_⟩
    rw [append_nil, getElem?_eq_getElem hlt]
    exact congrArg some (of_decide_eq_true hn)
  · exact ⟨[name], rfl, getElem?_concat_length⟩

/-- An entry for a variable with this place, name and role. -/
structure Enters (names : List String) (place : Int × String × VariableRole) (entry : VariableEntry) : Prop where
  offset_eq : entry.offset = place.1
  name_eq : names[entry.name]? = some place.2.1
  role_eq : entry.role = place.2.2

theorem variableEntries_spec (places : List (Int × String × VariableRole)) (tables : DebugTables) : ∃ more,
    (variableEntries tables places).2 = { tables with strings := tables.strings ++ more } ∧
      Forall₂ (Enters (tables.strings ++ more)) places (variableEntries tables places).1 := by
  induction places generalizing tables with
  | nil => exact ⟨[], by rw [append_nil]; rfl, .nil⟩
  | cons place rest ih =>
    obtain ⟨off, name, role⟩ := place
    obtain ⟨added, ht, hn⟩ := string_spec tables name
    obtain ⟨more, hl, he⟩ := ih (tables.string name).2
    have hs : (tables.string name).2.strings ++ more = tables.strings ++ (added ++ more) := by
      rw [ht, append_assoc]
    refine ⟨added ++ more, ?_, ?_⟩
    · change (variableEntries (tables.string name).2 rest).2 = _
      rw [hl, hs, ht]
    · rw [hs] at he
      have hp := getElem?_append_of_eq_some hn more
      rw [append_assoc] at hp
      exact .cons ⟨rfl, hp, rfl⟩ he

/-- What is added to the tables for a subroutine. -/
theorem describe_spec (tables : DebugTables) (name sym : String) (lines : List LineEntry)
    (places : List (Int × String × VariableRole)) : ∃ more info,
    describe tables name sym lines places = ⟨tables.strings ++ more, tables.lines ++ lines, tables.infos ++ [info]⟩ ∧
      info.start = localLabel sym "entry" ∧ info.stop = localLabel sym "exit" ∧
      (tables.strings ++ more)[info.name]? = some name ∧ Forall₂ (Enters (tables.strings ++ more)) places info.places := by
  unfold describe
  obtain ⟨added, ht, hn⟩ := string_spec (tables.addLines lines) name
  generalize (tables.addLines lines).string name = named at ht hn ⊢
  obtain ⟨id, later⟩ := named
  dsimp only at ht hn ⊢
  obtain ⟨more, hl, he⟩ := variableEntries_spec places later
  generalize variableEntries later places = listed at hl he ⊢
  obtain ⟨entries, last⟩ := listed
  subst ht hl
  -- first the name of the subroutine is added, then those of its variables
  rw [append_assoc] at he
  have hp := getElem?_append_of_eq_some hn more
  rw [append_assoc] at hp
  refine ⟨added ++ more, ⟨localLabel sym "entry", localLabel sym "exit", id, entries⟩, ?_, rfl, rfl, hp, he⟩
  rw [append_assoc]
  rfl

/-! ## Variables -/

/-- The place of a named variable. -/
structure PlaceOf (body : Body) (frame : Frame) (named : ValueId × VariableRole) (place : Int × String × VariableRole) : Prop where
  offset_eq : ∃ slot, frame.slot? named.1 = some slot ∧ place.1 = slot.offset
  name_eq : valueName? body named.1 = some place.2.1
  role_eq : place.2.2 = named.2

section

variable {body : Body} {frame : Frame}

/-- A variable with a slot is listed if it has a name. -/
theorem variablePlace?_spec {entry : ValueId × VariableRole} {found : Option (Int × String × VariableRole)}
    (h : variablePlace? body frame entry = .ok found) (hs : (frame.slot? entry.1).isSome = true) :
    (valueName? body entry.1 = none ∧ found = none) ∨ ∃ place, found = some place ∧ PlaceOf body frame entry place := by
  obtain ⟨val, hv, h⟩ := of_bind_eq_ok h
  obtain ⟨slot, hs⟩ := Option.isSome_iff_exists.mp hs
  have hn : valueName? body entry.1 = val.symbol.map (·.name) := by
    rw [valueName?, Table.fetch_eq_ok_iff.mp hv, Option.bind_some]
  rw [hs] at h
  cases hsy : val.symbol with
  | none =>
    rw [hsy] at h hn
    exact Or.inl ⟨hn, (Except.ok.inj h).symm⟩
  | some sym =>
    rw [hsy] at h hn
    exact Or.inr ⟨_, (Except.ok.inj h).symm, ⟨slot, hs, rfl⟩, hn, rfl⟩

/-- Of variables with slots those with names are listed, in order. -/
theorem placesOf_found {entries : List (ValueId × VariableRole)} {found : List (Option (Int × String × VariableRole))}
    (h : Forall₂ (fun entry res => variablePlace? body frame entry = .ok res) entries found)
    (hs : ∀ entry ∈ entries, (frame.slot? entry.1).isSome = true) :
    Forall₂ (PlaceOf body frame) (entries.filter fun entry => (valueName? body entry.1).isSome) (found.filterMap id) := by
  induction h with
  | nil => exact .nil
  | @cons entry res entries results hr _ ih =>
    obtain ⟨hsl, hs⟩ := forall_mem_cons.mp hs
    rw [filter_cons]
    rcases variablePlace?_spec hr hsl with ⟨hn, rfl⟩ | ⟨place, rfl, hp⟩
    · rw [hn]
      exact ih hs
    · rw [hp.name_eq]
      exact .cons hp (ih hs)

theorem variablePlaces_spec {places : List (Int × String × VariableRole)} (h : variablePlaces body frame = .ok places)
    (hc : frame.Covers (body.parameters ++ body.locals)) :
    Forall₂ (PlaceOf body frame) (namedVariables body) places := by
  obtain ⟨found, hf, h⟩ := of_bind_eq_ok h
  cases h
  refine placesOf_found ((mapM_eq_ok_iff_forall₂ _ _ _).mp hf) fun entry he => ?_
  rcases mem_append.mp he with he | he
  · obtain ⟨id, hid, rfl⟩ := mem_map.mp he
    exact hc id (mem_append_left _ hid)
  · obtain ⟨id, hid, rfl⟩ := mem_map.mp he
    exact hc id (mem_append_right _ hid)

end

/-! ## Lines -/

variable {cx : Context}

/-- A statement has a label if its position is known. -/
theorem isMarked_eq_isKnown (h : cx.debugInfo = true) (sym : String) (entry : Flow.Statement × Nat) :
    isMarked cx sym entry = entry.1.location.isKnown := by
  rw [isMarked, h, Bool.true_and, DebugTables.lineEntry?]
  by_cases hk : entry.1.location.isKnown = true
  · rw [if_pos hk, Option.isSome_map, hk]
    exact (Bool.and_eq_true_iff.mp hk).1
  · rw [if_neg hk, Bool.not_eq_true _ |>.mp hk]
    rfl

/-- The statements whose positions are known have entries in the table of lines. -/
theorem lineEntries_spec (committed : Committed) : Forall₂ LineOf (committed.placedStatements.map (committed, ·))
    (lineEntries committed.symbol committed.body) := by
  unfold Committed.placedStatements lineEntries
  generalize (bodyStatements committed.body).zipIdx = entries
  induction entries with
  | nil => exact .nil
  | cons entry rest ih =>
    obtain ⟨stmt, num⟩ := entry
    rw [filter_cons, filterMap_cons]
    by_cases hk : stmt.location.isKnown = true
    · obtain ⟨file, hf⟩ := Option.isSome_iff_exists.mp (Bool.and_eq_true_iff.mp hk).1
      simp only [DebugTables.lineEntry?, hk, hf, if_true, Option.map_some]
      exact .cons ⟨rfl, hf, rfl⟩ ih
    · simp only [DebugTables.lineEntry?, hk]
      exact ih

/-! ## The code of a subroutine -/

/-- The code of a subroutine lies between the labels for its beginning and its end. Its frame is the one that was laid out for it, with
the parameters in their records. -/
theorem subroutineCode_extent (cx : Context) (id : SubroutineId) (sub : Flow.Subroutine) (body : Body) (sym : String) :
    Yields (subroutineCode cx id sub body sym) (fun res =>
      (∃ code, res.1 = Item.exportedLabel sym ++ .label (localLabel sym "entry") :: code ++ [.label (localLabel sym "exit")]) ∧
        ∃ words, scratchWords cx.program body = .ok words ∧
          res.2 = withRecords (layoutOf body words).frame (layoutOf body words).records) := by
  refine .next fun exit => .bind (.lookUp _) fun words hw => .bind (copyCode_frame _ _) fun ⟨copy, frame⟩ hf =>
    .next fun defaults => .next fun blocks => .next fun drops => .next fun leave => .pure ⟨?_, words, hw, hf⟩
  obtain ⟨opening, -, ho⟩ := steps_entryCode sym (layoutOf body words)
  refine ⟨opening ++ [.label (localLabel sym "copy")] ++ copy ++ [.label (localLabel sym "init")] ++ defaults ++ blocks
    ++ [.label (localLabel sym "deinit")] ++ drops ++ [.label (localLabel sym "epilogue")] ++ leave, ?_⟩
  rw [ho]
  rfl

variable {committed : Committed}

/-- Parameters and locals have slots. -/
theorem Committed.Of.covers (h : committed.Of cx) : committed.frame.Covers (committed.body.parameters ++ committed.body.locals) := by
  obtain ⟨words, -, hf⟩ := h.frame_eq
  intro val hv
  rw [hf]
  refine retains_withRecords _ _ val ?_
  rw [slot?_layoutOf]
  exact covers_bodyFrame committed.body val (mem_cons_of_mem _ (mem_append_left _ hv))

/-! ## One stretch more -/

theorem InfoOf.mono {info : InfoEntry} (h : InfoOf names committed info) (more : List String) :
    InfoOf (names ++ more) committed info := by
  refine ⟨h.start_eq, h.stop_eq, h.encloses, getElem?_append_of_eq_some h.name_eq more, h.places.imp fun named entry he => ?_⟩
  obtain ⟨name, hn, hp⟩ := he.name_eq
  exact ⟨he.role_eq, he.offset_eq, name, hn, getElem?_append_of_eq_some hp more⟩

/-- What is entered for a subroutine describes it. -/
theorem Committed.Of.infoOf (h : committed.Of cx) {places : List (Int × String × VariableRole)}
    (hps : variablePlaces committed.body committed.frame = .ok places) {info : InfoEntry}
    (hs : info.start = localLabel committed.symbol "entry") (hst : info.stop = localLabel committed.symbol "exit")
    (hn : names[info.name]? = some committed.name) (het : Forall₂ (Enters names) places info.places) :
    InfoOf names committed info := by
  obtain ⟨sub, before, after, -, -, hrun⟩ := h.selected
  obtain ⟨hen, -⟩ := subroutineCode_extent _ _ _ _ _ _ _ _ hrun
  rw [← hs, ← hst] at hen
  refine ⟨hs, hst, hen, hn, ?_⟩
  -- the places were found for the variables, and the entries were made from the places
  refine forall₂_of_forall₂ (fun place named entry hp he => ?_) (variablePlaces_spec hps h.covers).flip het
  obtain ⟨slot, hsl, ho⟩ := hp.offset_eq
  exact ⟨he.role_eq.trans hp.role_eq, ⟨slot, hsl, he.offset_eq.trans ho⟩, _, hp.name_eq, he.name_eq⟩

/-- Tables that describe a text to which more can be added. -/
structure Describing (cx : Context) (stretches : List Stretch) (text : List Item) (tables : DebugTables) : Prop
    extends Describes cx stretches text tables where
  bears : ∃ bare, Bears text (lineMarks text) bare

section

variable {cx : Context} {stretches : List Stretch} {text items : List Item} {tables : DebugTables}

/-- The labels of lines that code bears are those in it. -/
theorem lineMarks_of_bears {bare : List Item} {marks : List (String × String)} (h : Bears items marks bare) : lineMarks items = marks := by
  have hall := h.marks_eq []
  rwa [append_nil, lineMarks, append_nil] at hall

theorem Describing.nil : Describing cx [] [] .empty := ⟨⟨rfl, forall_mem_nil _, .nil, .nil, .nil⟩, [], .nil⟩

variable (first rest : List Stretch)

theorem committedIn_append : committedIn (first ++ rest) = committedIn first ++ committedIn rest := filterMap_append ..

theorem placedStatements_append : placedStatements (first ++ rest) = placedStatements first ++ placedStatements rest := by
  rw [placedStatements, committedIn_append, flatMap_append]
  rfl

section

variable (h : Describing cx stretches text tables) (hof : (Stretch.other items).Of cx) (hi : Bears items [] items)
include h hof hi

/-- The code of an initializer, of which the tables say nothing. -/
theorem Describing.other : Describing cx (stretches ++ [.other items]) (text ++ items) tables := by
  obtain ⟨bare, hb⟩ := h.bears
  have hall := hb.append hi
  have hm := lineMarks_of_bears hall
  rw [← hm] at hall
  rw [append_nil] at hm
  refine ⟨⟨?_, ?_, ?_, ?_, ?_⟩, _, hall⟩
  · rw [h.text_eq, flatMap_append, flatMap_singleton]
    rfl
  · exact forall_mem_append.mpr ⟨h.stretches_of, forall_mem_singleton.mpr hof⟩
  · rw [placedStatements_append, hm]
    exact (append_nil _).symm ▸ h.marks
  · rw [placedStatements_append]
    exact (append_nil _).symm ▸ h.lines
  · rw [committedIn_append]
    exact (append_nil _).symm ▸ h.infos

/-- The code that starts the process, in front. -/
theorem Describing.start : Describes cx (.other items :: stretches) (items ++ text) tables := by
  refine ⟨?_, forall_mem_cons.mpr ⟨hof, h.stretches_of⟩, ?_, h.lines, h.infos⟩
  · rw [h.text_eq]
    rfl
  · rw [hi.marks_eq]
    exact h.marks

end

/-- The code of a subroutine, which is entered into the tables. -/
theorem Describing.subroutine (h : Describing cx stretches text tables) (hd : cx.debugInfo = true) {committed : Committed}
    (hof : committed.Of cx) {bare : List Item}
    (hmr : LineMarked cx committed.symbol committed.body (bodyStatements committed.body).zipIdx committed.items bare)
    {places : List (Int × String × VariableRole)} (hpl : variablePlaces committed.body committed.frame = .ok places) :
    Describing cx (stretches ++ [.subroutine committed]) (text ++ committed.items)
      (describe tables committed.name committed.symbol (lineEntries committed.symbol committed.body) places) := by
  obtain ⟨marks, hi, hm⟩ := hmr
  have hp : (bodyStatements committed.body).zipIdx.filter (isMarked cx committed.symbol) = committed.placedStatements :=
    filter_congr fun entry _ => isMarked_eq_isKnown hd committed.symbol entry
  rw [hp] at hm
  obtain ⟨before, hb⟩ := h.bears
  have hall := hb.append hi
  have ht := lineMarks_of_bears hall
  rw [← ht] at hall
  obtain ⟨more, info, hds, hs, hst, hn, he⟩ :=
    describe_spec tables committed.name committed.symbol (lineEntries committed.symbol committed.body) places
  have hnew : placedStatements [.subroutine committed] = committed.placedStatements.map (committed, ·) := flatMap_singleton ..
  rw [hds]
  refine ⟨⟨?_, ?_, ?_, ?_, ?_⟩, _, hall⟩
  · rw [h.text_eq, flatMap_append, flatMap_singleton]
    rfl
  · exact forall_mem_append.mpr ⟨h.stretches_of, forall_mem_singleton.mpr hof⟩
  · rw [placedStatements_append, ht, hnew]
    exact rel_append h.marks (forall₂_map_left_iff.mpr hm)
  · rw [placedStatements_append, hnew]
    exact rel_append h.lines (lineEntries_spec committed)
  · rw [committedIn_append]
    exact rel_append (h.infos.imp fun _ _ hin => hin.mono more) (.cons (hof.infoOf hpl hs hst hn he) .nil)

/-! ## All stretches -/

variable {before after : Emission}

variable (h : Describing cx stretches before.text before.debug)
include h

/-- One piece of work adds a stretch at most. -/
theorem Describing.handles (hd : cx.debugInfo = true) {work : Work} {out : Outcome} (hw : Handles cx before work out after) :
    ∃ more, Describing cx (stretches ++ more) after.text after.debug := by
  have hno : ∃ more, Describing cx (stretches ++ more) before.text before.debug := ⟨[], (append_nil stretches).symm ▸ h⟩
  cases hw with
  | @subroutine id sub body name items frame kept places hid hb hrun hn hp =>
    obtain ⟨bare, hm, -⟩ := (subroutineCode_inStep cx id sub body _).yields _ _ _ hrun
    obtain ⟨-, hf⟩ := subroutineCode_extent _ _ _ _ _ _ _ _ hrun
    have hof : Committed.Of cx ⟨id, name, before.kept.symbolOf id, body, frame, items⟩ :=
      ⟨⟨sub, before.kept, kept, hid, hb, hrun⟩, hn, hf⟩
    refine ⟨[.subroutine ⟨id, name, before.kept.symbolOf id, body, frame, items⟩], ?_⟩
    rw [hd]
    exact h.subroutine hd hof hm hp
  | @initializer ty sym decl items kept hc hrun =>
    exact ⟨[.other items], h.other ⟨before.kept, kept, Or.inl ⟨decl, sym, hrun⟩⟩ (initializerCode_bears _ _ _ _ _ _ hrun)⟩
  | _ => exact hno

/-- One piece of work after the other. -/
theorem Describing.drain {fuel : Nat} (hdb : cx.debugInfo = true) (hd : drain cx fuel before = .ok after) :
    ∃ stretches, Describing cx stretches after.text after.debug := by
  have hs : ∃ stretches, Describing cx stretches before.text before.debug := ⟨stretches, h⟩
  refine drain_induction (P := fun now => ∃ stretches, Describing cx stretches now.text now.debug) hd ?_ hs
  rintro now work queue out next hwr ⟨stretches, hn⟩
  have hw : Describing cx stretches (now.waiting queue).text (now.waiting queue).debug := hn
  obtain ⟨more, hm⟩ := hw.handles hdb hwr
  exact ⟨stretches ++ more, hm⟩

/-- The start of the process is put in front. -/
theorem Describing.starts (hs : Starts cx before items after) : ∃ stretches, Describes cx stretches after.text after.debug := by
  cases hs with
  | @started entry items kept hen he hrun =>
    exact ⟨.other items :: stretches, h.start ⟨before.kept, kept, Or.inr ⟨_, hrun⟩⟩ (startCode_bears _ _ _ _ hrun)⟩
  | _ => exact ⟨stretches, h.toDescribes⟩

end

/-! ## How the tables are written -/

/-- A role is written as 0 for a parameter, and as 1 for a local. -/
theorem number_eq_ite (role : VariableRole) : role.number = if role = .parameter then 0 else 1 := by
  cases role with
  | parameter | localVariable => rfl

/-- The table of subroutines, as data. -/
theorem info_toUnit (em : Emission) : (em.toUnit true).info = em.debug.infos.flatMap fun info =>
      [.data (.quadSymbol info.start), .data (.quadSymbol info.stop), .data (.long info.name), .data (.long info.places.length)]
        ++ info.places.flatMap fun place =>
          [.data (.quad place.offset), .data (.long place.name), .data (.long (if place.role = .parameter then 0 else 1))] := by
  simp only [← number_eq_ite]
  rfl

/-- The table of names, as data. -/
theorem strings_toUnit (em : Emission) : (em.toUnit true).strings = em.debug.strings.flatMap fun name =>
      [.data (.long name.toUTF8.toList.length), .data (.ascii name)] := by
  simp only [length_bytes]
  rfl

/-- The debug tables describe the emitted code exactly. The text is made up of stretches, of which some are the code of subroutines.
The table of lines has an entry for each of their statements whose position is known, with the file and the line of the statement, in the
order of the labels of lines in the text. The table of subroutines has an entry for each of them, in the order of the text: its code lies
between the two labels, and its named parameters and then its named locals are listed with their roles and with the places that the code
uses for them. All names are in the table of names.

An entry of the table of lines is written as its label, the number of the file and the line. An entry of the table of subroutines is
written as its two labels, the number of its name and how many variables follow; and each of those as its place, the number of its name,
and 0 for a parameter or 1 for a local. A name is written as the number of its bytes and the bytes. -/
theorem selectProgram_describes {program : Flow.Program} {colored : Bool} {diagnostics after : Diagnostics} {unit : AssemblyUnit}
    (h : selectProgram ⟨program, true, colored⟩ diagnostics = .ok (unit, after)) :
    ∃ stretches tables, Describes ⟨program, true, colored⟩ stretches unit.text tables ∧
      tables.lines.map (·.label) = (lineMarks unit.text).map Prod.fst ∧
      (unit.line = tables.lines.flatMap fun entry =>
        [.data (.quadSymbol entry.label), .data (.long entry.file), .data (.long entry.line.toNat)]) ∧
      (unit.info = tables.infos.flatMap fun info =>
        [.data (.quadSymbol info.start), .data (.quadSymbol info.stop), .data (.long info.name), .data (.long info.places.length)]
          ++ info.places.flatMap fun place =>
            [.data (.quad place.offset), .data (.long place.name), .data (.long (if place.role = .parameter then 0 else 1))]) ∧
      (unit.strings = tables.strings.flatMap fun name =>
        [.data (.long name.toUTF8.toList.length), .data (.ascii name)]) := by
  obtain ⟨symbols, hsymbols, h⟩ := of_bind_eq_ok h
  obtain ⟨drained, hdrain, h⟩ := of_bind_eq_ok h
  obtain ⟨last, hstart, h⟩ := of_bind_eq_ok h
  obtain ⟨rfl, rfl⟩ := ok_pair_inj h
  have hnil : Describing ⟨program, true, colored⟩ [] [] .empty := .nil
  obtain ⟨stretches, hdescribing⟩ := hnil.drain rfl hdrain
  obtain ⟨items, hstarts⟩ := starts_of_emitStart hstart
  obtain ⟨stretches, hdescribes⟩ := hdescribing.starts hstarts
  rw [toUnit_text]
  refine ⟨stretches, last.debug, hdescribes, ?_, rfl, info_toUnit last, strings_toUnit last⟩
  -- an entry and the label in the text belong to the same statement
  rw [← forall₂_eq_eq_eq, forall₂_map_left_iff, forall₂_map_right_iff]
  exact forall₂_of_forall₂ (fun placed line mark hline hmark => hline.label_eq.trans hmark.label_eq.symm) hdescribes.lines hdescribes.marks

/-- A subroutine with a parameter and a local, and with two statements, of which one is known to be from the third line of a file. -/
def ledger : Flow.Program where
  files := [⟨.memory⟩]
  types := ⟨[.dynamic, .function [0] 0]⟩
  classNames := []
  subroutines := [⟨⟨"enter", .unknown⟩, 1, .internal, none, .defined {
    returnValue := 0
    parameters := [1]
    locals := [2]
    temporaries := []
    values := [⟨0, none, 0⟩, ⟨1, some ⟨"amount", .unknown⟩, 0⟩, ⟨2, some ⟨"total", .unknown⟩, 0⟩]
    blocks := [⟨[⟨.assign 2 (.value 1), ⟨some 0, 3, 1⟩⟩, ⟨.assign 0 (.value 2), .unknown⟩], .sink, []⟩]
    entry := 0
    sink := 0 }⟩]
  defined := [0]
  declared := []
  imported := []
  methods := []
  classes := []
  literals := []
  entry := none

/-- Its one label of a line is listed with the third line, and its two variables with the places that they have. -/
theorem selectProgram_describes_ledger : ∃ unit after, selectProgram ⟨ledger, true, false⟩ [] = .ok (unit, after) ∧
      lineMarks unit.text = [(".Lenter.line0", "%2.total <- %1.amount")] ∧
      unit.line = [.data (.quadSymbol ".Lenter.line0"), .data (.long 0), .data (.long 3)] ∧
      unit.info = [.data (.quadSymbol ".Lenter.entry"), .data (.quadSymbol ".Lenter.exit"), .data (.long 0), .data (.long 2),
        .data (.quad (-64)), .data (.long 1), .data (.long 0), .data (.quad (-96)), .data (.long 2), .data (.long 1)] ∧
      unit.strings = [.data (.long 5), .data (.ascii "enter"), .data (.long 6), .data (.ascii "amount"), .data (.long 5),
        .data (.ascii "total")] ∧
      ∃ stretches tables, Describes ⟨ledger, true, false⟩ stretches unit.text tables ∧
        tables.lines.map (·.label) = (lineMarks unit.text).map Prod.fst := by
  have hunit : (selectProgram ⟨ledger, true, false⟩ []).map
      (fun result => (lineMarks result.1.text, result.1.line, result.1.info, result.1.strings)) =
      .ok ([(".Lenter.line0", "%2.total <- %1.amount")], [.data (.quadSymbol ".Lenter.line0"), .data (.long 0), .data (.long 3)],
        [.data (.quadSymbol ".Lenter.entry"), .data (.quadSymbol ".Lenter.exit"), .data (.long 0), .data (.long 2),
          .data (.quad (-64)), .data (.long 1), .data (.long 0), .data (.quad (-96)), .data (.long 2), .data (.long 1)],
        [.data (.long 5), .data (.ascii "enter"), .data (.long 6), .data (.ascii "amount"), .data (.long 5),
          .data (.ascii "total")]) := by
    decide +kernel
  obtain ⟨⟨unit, after⟩, hselect, hparts⟩ := exists_of_map_eq_ok hunit
  obtain ⟨hmarks, hrest⟩ := Prod.mk.inj hparts
  obtain ⟨hline, hrest⟩ := Prod.mk.inj hrest
  obtain ⟨hinfo, hstrings⟩ := Prod.mk.inj hrest
  obtain ⟨stretches, tables, hdescribes, hlabels, -⟩ := selectProgram_describes hselect
  exact ⟨unit, after, hselect, hmarks, hline, hinfo, hstrings, stretches, tables, hdescribes, hlabels⟩

end TagAsm.Select
