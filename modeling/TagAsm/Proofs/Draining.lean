import TagAsm.Proofs.Labels

/-!
# Draining the queue

One piece of work after the other is taken from the queue, and the code of it may put more into the queue. What one piece of
work can do is said once, in `Handles`, and `Drained` puts pieces of work in a row until the queue is empty. As nothing is asked
for twice, the queue does run empty.
-/

namespace TagAsm.Select

open Asm Abi List
open TagAsm.Flow (SubroutineId Subroutine Body ClassLayout)

/-! ## One piece of work -/

/-- What became of a piece of work. -/
inductive Outcome where
  | emitted (items : List Item)
  | refused (refusal : Refusal)
  /-- There was no body to emit. -/
  | absent

/-- The code that was emitted. -/
def Outcome.items : Outcome → List Item
  | .emitted items => items
  | .refused _ | .absent => []

/-- The symbol under which a subroutine is emitted. -/
def Selection.symbolOf (kept : Selection) (id : SubroutineId) : String := (kept.symbols.subroutine? id).getD ""

/-- All that a piece of work can do. -/
inductive Handles (cx : Context) (before : Emission) : Work → Outcome → Emission → Prop where
  | subroutine {id : SubroutineId} {sub : Subroutine} {body : Body} {name : String} {items : List Item} {frame : Frame}
    {kept : Selection} {places : List (Int × String × VariableRole)}
    (hid : cx.program.subroutines[id]? = some sub) (hbody : sub.kind = .defined body)
    (hrun : (subroutineCode cx id sub body (before.kept.symbolOf id)).run.run before.kept = .ok (.ok (items, frame), kept))
    (hname : cx.program.subroutineName id = .ok name) (hplaces : variablePlaces body frame = .ok places) :
    Handles cx before (.subroutine id) (.emitted items)
      { kept, text := before.text ++ items,
        debug := if cx.debugInfo then
            describe before.debug name (before.kept.symbolOf id) (lineEntries (before.kept.symbolOf id) body) places
          else before.debug
        emitted := before.emitted ++ [id] }
  | subroutineRefused {id : SubroutineId} {sub : Subroutine} {body : Body} {name : String} {refusal : Refusal}
    {kept : Selection} (hid : cx.program.subroutines[id]? = some sub) (hbody : sub.kind = .defined body)
    (hrun : (subroutineCode cx id sub body (before.kept.symbolOf id)).run.run before.kept = .ok (.error refusal, kept))
    (hname : cx.program.subroutineName id = .ok name) :
    Handles cx before (.subroutine id) (.refused refusal) (before.refuse kept (refusal.report sub.symbol.location ("`" ++ name ++ "`")))
  | nameless {id : SubroutineId} {sub : Subroutine} {body : Body} {name : String}
    (hid : cx.program.subroutines[id]? = some sub) (hbody : sub.kind = .defined body)
    (hsymbol : before.kept.symbols.subroutine? id = none) (hname : cx.program.subroutineName id = .ok name) :
    Handles cx before (.subroutine id) (.refused (.missingSubroutine id))
      (before.refuse before.kept ((Refusal.missingSubroutine id).report sub.symbol.location ("`" ++ name ++ "`")))
  | bodiless {id : SubroutineId} (hbody : ∀ sub, cx.program.subroutines[id]? = some sub → sub.body? = none) :
    Handles cx before (.subroutine id) .absent before
  | initializer {ty : TypeId} {sym : String} {decl : ClassLayout} {items : List Item} {kept : Selection}
    (hclass : cx.program.classOfType? ty = some decl)
    (hrun : (initializerCode cx decl sym).run.run before.kept = .ok (.ok items, kept)) :
    Handles cx before (.initializer ty sym) (.emitted items) { before with kept, text := before.text ++ items }
  | initializerRefused {ty : TypeId} {sym : String} {decl : ClassLayout} {refusal : Refusal} {kept : Selection}
    (hclass : cx.program.classOfType? ty = some decl)
    (hrun : (initializerCode cx decl sym).run.run before.kept = .ok (.error refusal, kept)) :
    Handles cx before (.initializer ty sym) (.refused refusal)
      (before.refuse kept (refusal.report decl.symbol.location ("initializer `" ++ sym ++ "`")))
  | classless {ty : TypeId} {sym name : String} (hclass : cx.program.classOfType? ty = none) (hname : cx.program.typeName ty = .ok name) :
    Handles cx before (.initializer ty sym) (.refused (.missingClass name))
      (before.refuse before.kept ((Refusal.missingClass name).report .unknown ("initializer `" ++ sym ++ "`")))

/-- Does a piece of work. -/
def emitWork (cx : Context) : Work → Emission → Except Fault Emission
  | .subroutine id => emitSubroutine cx id
  | .initializer ty sym => emitInitializer cx ty sym

section

variable {cx : Context} {before after : Emission}

theorem handles_of_emitSubroutine {id : SubroutineId} (h : emitSubroutine cx id before = .ok after) :
    ∃ out, Handles cx before (.subroutine id) out after := by
  unfold emitSubroutine at h
  split at h
  · rename_i hid
    cases h
    exact ⟨.absent, .bodiless fun sub hs => by simp [hid] at hs⟩
  · rename_i sub hid
    -- without a body nothing is done
    have hno : sub.body? = none → Handles cx before (.subroutine id) .absent before := by
      intro hb
      refine .bodiless fun found hf => ?_
      cases hid.symm.trans hf
      exact hb
    split at h
    case h_1 hk | h_2 hk =>
      cases h
      exact ⟨.absent, hno (by rw [Subroutine.body?, hk])⟩
    case h_3 body hk =>
      obtain ⟨name, hn, h⟩ := of_bind_eq_ok h
      split at h
      case h_1 sym hs =>
        have hsm : sym = before.kept.symbolOf id := by rw [Selection.symbolOf, hs, Option.getD_some]
        subst hsm
        obtain ⟨⟨res, kept⟩, hrun, h⟩ := of_bind_eq_ok h
        cases res with
        | ok res =>
          obtain ⟨places, hpl, h⟩ := of_bind_eq_ok h
          cases h
          exact ⟨.emitted res.1, .subroutine hid hk hrun hn hpl⟩
        | error refusal =>
          cases h
          exact ⟨.refused refusal, .subroutineRefused hid hk hrun hn⟩
      case h_2 hs =>
        cases h
        exact ⟨_, .nameless hid hk (Option.eq_none_iff_forall_ne_some.mpr hs) hn⟩

theorem handles_of_emitInitializer {ty : TypeId} {sym : String} (h : emitInitializer cx ty sym before = .ok after) :
    ∃ out, Handles cx before (.initializer ty sym) out after := by
  unfold emitInitializer at h
  split at h
  · rename_i hc
    obtain ⟨name, hn, h⟩ := of_bind_eq_ok h
    cases h
    exact ⟨_, .classless hc hn⟩
  · rename_i decl hc
    obtain ⟨⟨res, kept⟩, hrun, h⟩ := of_bind_eq_ok h
    cases res with
    | ok items =>
      cases h
      exact ⟨_, .initializer hc hrun⟩
    | error refusal =>
      cases h
      exact ⟨_, .initializerRefused hc hrun⟩

theorem handles_of_emitWork {work : Work} (h : emitWork cx work before = .ok after) : ∃ out, Handles cx before work out after := by
  cases work with
  | subroutine id => exact handles_of_emitSubroutine h
  | initializer ty sym => exact handles_of_emitInitializer h

end

/-! ## What a piece of work keeps -/

/-- Bodies, and lists of methods, that code can be selected for. -/
structure Context.Prepared (cx : Context) : Prop where
  bodies : ∀ (id : SubroutineId) (sub : Subroutine) (body : Body), cx.program.subroutines[id]? = some sub →
    sub.kind = .defined body → body.Sound cx.program.literals ∧ body.Placed
  methods_lt : ∀ decl ∈ cx.program.classes, ∀ method ∈ decl.methods, method.subroutine < cx.program.subroutines.length
  defined : ∀ id ∈ cx.program.defined, ∃ sub, cx.program.subroutines[id]? = some sub ∧
    sub.body?.isSome = true

/-- What is reported about a piece of work as a whole. -/
inductive Outcome.Reports : Outcome → Diagnostics → Prop where
  | emitted (items : List Item) : Reports (.emitted items) []
  | refused (refusal : Refusal) (loc : Location) (what : String) : Reports (.refused refusal) [refusal.report loc what]
  | absent : Reports .absent []

/-- There is something to emit. -/
def Work.HasSubject (cx : Context) : Work → Prop
  | .subroutine id => ∃ sub, cx.program.subroutines[id]? = some sub ∧ sub.body?.isSome = true
  | .initializer ty _ => (cx.program.classOfType? ty).isSome = true

/-- Why a piece of work is refused: it is a subroutine, and unfit. -/
def UnfitWork (cx : Context) (work : Work) (refusal : Refusal) : Prop :=
  ∃ id sub, work = .subroutine id ∧ cx.program.subroutines[id]? = some sub ∧ Unfit cx id sub refusal

/-- As the table has a symbol for every subroutine, a subroutine is emitted under its own symbol. -/
theorem Selection.Aligned.subroutine?_eq {cx : Context} {kept : Selection} {syms : SymbolTable} (h : kept.Aligned cx)
    (hs : kept.symbols.subroutines = syms.subroutines) {id : SubroutineId} {sub : Subroutine}
    (hid : cx.program.subroutines[id]? = some sub) : syms.subroutine? id = some (kept.symbolOf id) := by
  have hlt : id < kept.symbols.subroutines.length := by
    rw [h]
    exact (List.getElem?_eq_some_iff.mp hid).1
  simp [symbolOf, SymbolTable.subroutine?, ← hs, getElem?_eq_getElem hlt]

section

variable {cx : Context} {before after : Emission} {work : Work} {out : Outcome}

/-- The code of a subroutine, where it can be selected. -/
theorem Context.Prepared.subroutine_selects (hp : cx.Prepared) {id : SubroutineId} {sub : Subroutine} {body : Body}
    (hid : cx.program.subroutines[id]? = some sub) (hb : sub.kind = .defined body) (sym : String)
    (kept : Selection) :
    Selects cx kept (subroutineCode cx id sub body sym)
      (fun res after => Covered cx (routineTargets sym body) res.1 after) (.given True (Unfit cx id sub)) :=
  (subroutineCode_selects (fun _ => hid) (fun _ => hp.bodies id sub body hid hb) sym).imp fun _ _ h => h.2 trivial

/-- The code of an initializer, where it can be selected. It is never refused. -/
theorem Context.Prepared.initializer_selects (hp : cx.Prepared) {ty : TypeId} {decl : ClassLayout}
    (hc : cx.program.classOfType? ty = some decl) (sym : String) (kept : Selection) :
    Selects cx kept (initializerCode cx decl sym) (CodeKnown cx) (.given True fun _ => False) :=
  (initializerCode_selects (fun _ => hp.methods_lt decl (mem_of_find?_eq_some hc)) sym).imp fun _ _ h => h.2

variable (h : Handles cx before work out after) (hp : cx.Prepared)
include h hp

/-- A piece of work adds notes, and then what is reported about it. -/
theorem Handles.keeps : ∃ kept reports, Notes cx before.kept kept ∧ out.Reports reports ∧
      after.kept = { kept with diagnostics := kept.diagnostics ++ reports } := by
  have hpl : ∀ kept : Selection, kept = { kept with diagnostics := kept.diagnostics ++ [] } := by simp
  cases h with
  | @subroutine id sub body name items frame kept places hid hb hrun =>
    have hs := hp.subroutine_selects hid hb (before.kept.symbolOf id) before.kept
    exact ⟨kept, [], (hs _ _ hrun).1, .emitted items, hpl kept⟩
  | @subroutineRefused id sub body name refusal kept hid hb hrun =>
    have hs := hp.subroutine_selects hid hb (before.kept.symbolOf id) before.kept
    exact ⟨kept, _, (hs _ _ hrun).1, .refused refusal _ _, rfl⟩
  | nameless => exact ⟨before.kept, _, .refl, .refused _ _ _, rfl⟩
  | bodiless hb => exact ⟨before.kept, [], .refl, .absent, hpl _⟩
  | @initializer ty sym decl items kept hc hrun =>
    have hs := hp.initializer_selects hc sym before.kept
    exact ⟨kept, [], (hs _ _ hrun).1, .emitted items, hpl kept⟩
  | @initializerRefused ty sym decl refusal kept hc hrun =>
    have hs := hp.initializer_selects hc sym before.kept
    exact ⟨kept, _, (hs _ _ hrun).1, .refused refusal _ _, rfl⟩
  | @classless ty sym name hc => exact ⟨before.kept, _, .refl, .refused (.missingClass name) _ _, rfl⟩

/-- Where there is something to emit, it is emitted, unless it is a subroutine that is unfit. -/
theorem Handles.settled (hal : before.kept.Aligned cx) (hsb : work.HasSubject cx) :
    (∃ items, out = .emitted items) ∨ ∃ refusal, out = .refused refusal ∧ UnfitWork cx work refusal := by
  cases h with
  | subroutine | initializer => exact Or.inl ⟨_, rfl⟩
  | @subroutineRefused id sub body name refusal kept hid hb hrun =>
    have hu := (hp.subroutine_selects hid hb (before.kept.symbolOf id) before.kept).allowed hal hrun
    exact Or.inr ⟨refusal, rfl, id, sub, rfl, hid, hu⟩
  | nameless hid hb hs => cases hs.symm.trans (hal.subroutine?_eq rfl hid)
  | bodiless hb =>
    obtain ⟨sub, hid, hs⟩ := hsb
    rw [hb sub hid] at hs
    cases hs
  | @initializerRefused ty sym decl refusal kept hc hrun =>
    have hsl := hp.initializer_selects hc sym before.kept
    exact (hsl.allowed hal hrun).elim
  | classless hc =>
    have hs : (cx.program.classOfType? _).isSome = true := hsb
    rw [hc] at hs
    cases hs

end

/-! ## The whole queue -/

/-- What was emitted, with another queue. -/
def Emission.waiting (em : Emission) (queue : List Work) : Emission :=
  { em with kept := { em.kept with queue } }

/-- Pieces of work that were taken from the queue, one after the other, until it was empty. -/
inductive Drained (cx : Context) : Emission → List (Work × Outcome) → Emission → Prop where
  | done {em : Emission} (hqueue : em.kept.queue = []) : Drained cx em [] em
  | step {em next last : Emission} {work : Work} {queue : List Work} {out : Outcome} {parts : List (Work × Outcome)}
    (hqueue : em.kept.queue = work :: queue) (hwork : Handles cx (em.waiting queue) work out next)
    (hrest : Drained cx next parts last) : Drained cx em ((work, out) :: parts) last

/-- All work that there is: the subroutines that wait in the beginning, and what was asked for since. -/
def allWork (prog : Flow.Program) (syms : SymbolTable) : List Work :=
  prog.defined.map Work.subroutine ++ askedFor syms

theorem mem_allWork {prog : Flow.Program} {syms : SymbolTable} {work : Work} :
    work ∈ allWork prog syms ↔ (∃ id, work = .subroutine id ∧ (id ∈ prog.defined ∨ id ∈ syms.methods)) ∨
      ∃ ty sym, work = .initializer ty sym ∧ (ty, sym) ∈ syms.initializers := by
  cases work with
  | subroutine | initializer => simp [allWork, askedFor]

/-- What selection keeps while the queue is drained, with the work that was taken from it by then. Every piece of work is there
as often as it was asked for. -/
structure Bookkept (cx : Context) (syms : SymbolTable) (handled : List Work) (kept : Selection) : Prop where
  aligned : kept.Aligned cx
  subroutines_eq : kept.symbols.subroutines = syms.subroutines
  inOrder : kept.InOrder cx syms.taken
  perm : (handled ++ kept.queue).Perm (allWork cx.program kept.symbols)

section

variable {cx : Context} {syms : SymbolTable} {em next last : Emission} {work : Work} {queue ha : List Work}
  {out : Outcome} {parts : List (Work × Outcome)}

section

variable (h : Bookkept cx syms ha em.kept) (hp : cx.Prepared)
  (hq : em.kept.queue = work :: queue)
include h hp hq

/-- There is something to emit for all work that waits. -/
theorem Bookkept.hasSubject : work.HasSubject cx := by
  have hak : work ∈ allWork cx.program em.kept.symbols := by
    rw [← h.perm.mem_iff, hq]
    exact mem_append_right _ mem_cons_self
  rcases mem_allWork.mp hak with ⟨id, rfl, hd | hm⟩ | ⟨ty, sym, rfl, hi⟩
  · exact hp.defined id hd
  · obtain ⟨sub, hs, hb, -⟩ := h.inOrder.methods id hm
    exact ⟨sub, hs, hb⟩
  · exact h.inOrder.classes (ty, sym) hi

theorem Bookkept.step (hwr : Handles cx (em.waiting queue) work out next) : Bookkept cx syms (ha ++ [work]) next.kept := by
  obtain ⟨kept, reports, hn, -, hk⟩ := hwr.keeps hp
  have hs : next.kept.symbols.subroutines = em.kept.symbols.subroutines := by
    rw [hk]
    exact hn.subroutines_eq
  obtain ⟨works, hwrs, hak⟩ := hn.asks
  refine ⟨?_, hs.trans h.subroutines_eq, ?_, ?_⟩
  · rw [Selection.Aligned, hs]
    exact h.aligned
  · have hw : (em.waiting queue).kept.InOrder cx syms.taken := h.inOrder.congr rfl rfl rfl
    rw [hk]
    exact (hn.inOrder hw).congr rfl rfl rfl
  · -- the piece of work moves from the queue to those that were handled; what it asked for joins the queue
    have hb := h.perm
    rw [hq] at hb
    have hm : ha ++ [work] ++ next.kept.queue = (ha ++ work :: queue) ++ works := by
      rw [hk]
      simp [hwrs, Emission.waiting]
    rw [hm, hk]
    refine (hb.append_right works).trans ?_
    rw [allWork, append_assoc]
    exact hak.symm.append_left _

end

/-- Never is more handled than `workBound` says. -/
theorem Bookkept.length_le (h : Bookkept cx syms ha em.kept) : ha.length + em.kept.queue.length ≤ workBound cx.program := by
  have hl := h.perm.length_eq
  have hak := h.inOrder.length_askedFor
  simp only [allWork, length_append, length_map] at hl
  unfold workBound
  omega

theorem Drained.queue_eq_nil (h : Drained cx em parts last) : last.kept.queue = [] := by
  induction h with
  | done hq => exact hq
  | step _ _ _ ih => exact ih

/-! ## Enough is enough -/

theorem drain_of_queue_eq_nil (hq : em.kept.queue = []) (fuel : Nat) : drain cx fuel em = .ok em := by
  cases fuel with
  | zero => rfl
  | succ fuel => simp only [drain, hq]

theorem drain_succ (hq : em.kept.queue = work :: queue) (fuel : Nat) :
    drain cx (fuel + 1) em = emitWork cx work (em.waiting queue) >>= drain cx fuel := by
  simp only [drain, hq]
  cases work <;> rfl

/-- With as much fuel as there can be work, the queue is drained. -/
theorem drained_of_drain (hp : cx.Prepared) {fuel : Nat} (hk : Bookkept cx syms ha em.kept)
    (hf : workBound cx.program ≤ ha.length + fuel) (h : drain cx fuel em = .ok last) :
    ∃ parts, Drained cx em parts last := by
  induction fuel generalizing em ha with
  | zero =>
    obtain rfl := Except.ok.inj h
    have hl := hk.length_le
    have he : em.kept.queue.length = 0 := by omega
    exact ⟨[], .done (eq_nil_of_length_eq_zero he)⟩
  | succ fuel ih =>
    cases hq : em.kept.queue with
    | nil =>
      rw [drain_of_queue_eq_nil hq] at h
      cases h
      exact ⟨[], .done hq⟩
    | cons work queue =>
      rw [drain_succ hq] at h
      obtain ⟨next, hn, hr⟩ := of_bind_eq_ok h
      obtain ⟨out, hw⟩ := handles_of_emitWork hn
      have hh : workBound cx.program ≤ (ha ++ [work]).length + fuel := by
        rw [length_append, length_singleton]
        omega
      obtain ⟨parts, hpr⟩ := ih (hk.step hp hq hw) hh hr
      exact ⟨(work, out) :: parts, .step hq hw hpr⟩

/-- What holds before the queue is drained, and is carried from each piece of work to the next, holds in the end, whether there was
enough fuel or not. -/
theorem drain_induction {P : Emission → Prop} {fuel : Nat} (h : drain cx fuel em = .ok last)
    (hst : ∀ em work queue out next, Handles cx (em.waiting queue) work out next → P em → P next)
    (hs : P em) : P last := by
  induction fuel generalizing em with
  | zero => exact Except.ok.inj h ▸ hs
  | succ fuel ih =>
    cases hq : em.kept.queue with
    | nil =>
      rw [drain_of_queue_eq_nil hq] at h
      exact Except.ok.inj h ▸ hs
    | cons work queue =>
      rw [drain_succ hq] at h
      obtain ⟨next, hn, hr⟩ := of_bind_eq_ok h
      obtain ⟨out, hw⟩ := handles_of_emitWork hn
      exact ih hr (hst em work queue out next hw hs)

/-- Once the queue is drained, more fuel changes nothing. -/
theorem drain_of_le {fuel more : Nat} (hle : fuel ≤ more) (h : drain cx fuel em = .ok last)
    (hq : last.kept.queue = []) : drain cx more em = .ok last := by
  induction fuel generalizing em more with
  | zero =>
    cases h
    exact drain_of_queue_eq_nil hq more
  | succ fuel ih =>
    obtain ⟨more, rfl⟩ : ∃ less, more = less + 1 := ⟨more - 1, by omega⟩
    cases hw : em.kept.queue with
    | nil =>
      rw [drain_of_queue_eq_nil hw] at h ⊢
      exact h
    | cons work queue =>
      rw [drain_succ hw] at h ⊢
      obtain ⟨next, hn, hr⟩ := of_bind_eq_ok h
      rw [hn]
      exact ih (by omega) hr

end

/-! ## The start of the process -/

/-- All that can come of the attempt to start the process. -/
inductive Starts (cx : Context) (before : Emission) : List Item → Emission → Prop where
  | entryless (hentry : cx.program.entry = none) : Starts cx before [] before
  | started {entry : SubroutineId} {items : List Item} {kept : Selection} (hentry : cx.program.entry = some entry)
    (hemitted : entry ∈ before.emitted) (hrun : (startCode (before.kept.symbolOf entry)).run.run before.kept = .ok (.ok items, kept)) :
    Starts cx before items { before with kept, text := items ++ before.text }
  | nameless {entry : SubroutineId} (hentry : cx.program.entry = some entry) (hemitted : entry ∈ before.emitted)
    (hsymbol : before.kept.symbols.subroutine? entry = none) : Starts cx before [] before
  | bodiless {entry : SubroutineId} {sub : Subroutine} (hentry : cx.program.entry = some entry)
    (hemitted : entry ∉ before.emitted) (hid : cx.program.subroutines[entry]? = some sub)
    (hbody : sub.body? = none) :
    Starts cx before [] (before.refuse before.kept (.error .codegen .missingEntry sub.symbol.location
        ("entry subroutine `" ++ sub.symbol.name ++ "` has no body")))
  | leftOut {entry : SubroutineId} {sub : Subroutine} (hentry : cx.program.entry = some entry)
    (hemitted : entry ∉ before.emitted) (hid : cx.program.subroutines[entry]? = some sub)
    (hbody : sub.body?.isSome = true) : Starts cx before [] before
  | unknown {entry : SubroutineId} (hentry : cx.program.entry = some entry) (hemitted : entry ∉ before.emitted)
    (hid : cx.program.subroutines[entry]? = none) : Starts cx before [] before

/-- The code that starts the process is never refused, and calls one helper. -/
theorem startCode_keeps {sym : String} {kept later : Selection} {out : Except Refusal (List Item)}
    (h : (startCode sym).run.run kept = .ok (out, later)) :
    (∃ items, out = .ok items) ∧ later = { kept with externs := insertNew kept.externs Helper.makeNone.symbol } := by
  cases h
  exact ⟨⟨_, rfl⟩, rfl⟩

variable {cx : Context} {before after : Emission}

theorem starts_of_emitStart (h : emitStart cx before = .ok after) : ∃ items, Starts cx before items after := by
  unfold emitStart at h
  split at h
  · rename_i he
    cases h
    exact ⟨[], .entryless he⟩
  · rename_i entry he
    split at h
    · rename_i hem
      split at h
      case h_1 sym hs =>
        have hsm : sym = before.kept.symbolOf entry := by rw [Selection.symbolOf, hs, Option.getD_some]
        subst hsm
        obtain ⟨⟨res, kept⟩, hrun, h⟩ := of_bind_eq_ok h
        cases res with
        | ok items =>
          cases h
          exact ⟨items, .started he hem hrun⟩
        | error refusal =>
          obtain ⟨⟨items, hok⟩, -⟩ := startCode_keeps hrun
          cases hok
      case h_2 hs =>
        cases h
        exact ⟨[], .nameless he hem (Option.eq_none_iff_forall_ne_some.mpr hs)⟩
    · rename_i hem
      split at h
      · rename_i sub hid
        split at h
        · rename_i hb
          cases h
          exact ⟨[], .bodiless he hem hid (Option.isNone_iff_eq_none.mp hb)⟩
        · cases h
          exact ⟨[], .leftOut he hem hid (by rwa [Option.isSome_iff_ne_none, ne_eq, ← Option.isNone_iff_eq_none])⟩
      · rename_i hid
        cases h
        exact ⟨[], .unknown he hem hid⟩

/-- All that is reported is that the entry subroutine has no body. -/
theorem Starts.addsErrors {items : List Item} (h : Starts cx before items after) :
    AddsErrors before.kept.diagnostics after.kept.diagnostics := by
  cases h with
  | @started entry items kept hen he hrun =>
    obtain ⟨-, rfl⟩ := startCode_keeps hrun
    exact .refl _
  | bodiless hen he hid hb => exact .single _ _ _ (by decide)
  | _ => exact .refl _

/-! ## Programs -/

/-- Nothing is emitted yet, and the subroutines with a body wait, methods apart. -/
def Emission.initial (cx : Context) (syms : SymbolTable) (diags : Diagnostics) : Emission :=
  ⟨⟨syms, [], cx.program.defined.map Work.subroutine, diags⟩, [], .empty, []⟩

/-- A program whose code was selected: its subroutines were given symbols, the queue was drained, and the start of the process
was put in front. -/
structure Selected (cx : Context) (diags : Diagnostics) (syms : SymbolTable) (parts : List (Work × Outcome))
    (drained last : Emission) : Prop where
  symbols_eq : SymbolTable.ofProgram cx.program (Helper.all.map Helper.symbol) = .ok syms
  drain_eq : drain cx (workBound cx.program) (.initial cx syms diags) = .ok drained
  parts_drained : Drained cx (.initial cx syms diags) parts drained
  emitStart_eq : emitStart cx drained = .ok last

section

variable {cx : Context} {diags : Diagnostics} {syms : SymbolTable}

theorem bookkept_initial (h : SymbolTable.ofProgram cx.program (Helper.all.map Helper.symbol) = .ok syms) :
    Bookkept cx syms [] (Emission.initial cx syms diags).kept := by
  obtain ⟨hn, -, hi, hm⟩ := named_ofProgram h
  refine ⟨hn.length_eq, rfl, ?_, ?_⟩
  · constructor
    all_goals simp [Emission.initial, hi, hm]
  · simp [Emission.initial, allWork, askedFor, hi, hm]

variable {parts : List (Work × Outcome)} {drained last : Emission}

/-- What holds before the queue is drained, and is carried from each piece of work to the next, holds in the end. -/
theorem Selected.reaches (P : List (Work × Outcome) → Emission → Prop) (h : Selected cx diags syms parts drained last) (hp : cx.Prepared)
    (hst : ∀ done em work queue out next, Bookkept cx syms (done.map Prod.fst) em.kept →
      em.kept.queue = work :: queue → Handles cx (em.waiting queue) work out next → P done em →
      P (done ++ [(work, out)]) next)
    (hs : P [] (.initial cx syms diags)) :
    Bookkept cx syms (parts.map Prod.fst) drained.kept ∧ P parts drained := by
  -- the pieces of work that were done before are carried along
  have hr : ∀ {em parts last}, Drained cx em parts last → ∀ done, Bookkept cx syms (done.map Prod.fst) em.kept → P done em →
      Bookkept cx syms ((done ++ parts).map Prod.fst) last.kept ∧ P (done ++ parts) last := by
    intro em parts last hd
    induction hd with
    | done hq =>
      intro done hk hd
      rw [append_nil]
      exact ⟨hk, hd⟩
    | @step em next last work queue out parts hq hw hr ih =>
      intro done hk hd
      have hn := hst done em work queue out next hk hq hw hd
      have hk' : Bookkept cx syms ((done ++ [(work, out)]).map Prod.fst) next.kept := by
        rw [map_append]
        exact hk.step hp hq hw
      simpa using ih (done ++ [(work, out)]) hk' hn
  exact hr h.parts_drained [] (bookkept_initial h.symbols_eq) hs

/-- In the end all is done that there was to do. -/
theorem Selected.bookkept (h : Selected cx diags syms parts drained last) (hp : cx.Prepared) :
    Bookkept cx syms (parts.map Prod.fst) drained.kept :=
  (h.reaches (fun _ _ => True) hp (fun _ _ _ _ _ _ _ _ _ _ => trivial) trivial).1

theorem Selected.perm (h : Selected cx diags syms parts drained last) (hp : cx.Prepared) :
    (parts.map Prod.fst).Perm (allWork cx.program drained.kept.symbols) := by
  have hpr := (h.bookkept hp).perm
  rwa [h.parts_drained.queue_eq_nil, append_nil] at hpr

theorem selected_of_selectProgram (hp : cx.Prepared) {unit : AssemblyUnit} {after : Diagnostics}
    (h : selectProgram cx diags = .ok (unit, after)) :
    ∃ syms parts drained last, Selected cx diags syms parts drained last ∧
      unit = last.toUnit cx.debugInfo ∧ after = last.kept.diagnostics := by
  obtain ⟨syms, hs, h⟩ := of_bind_eq_ok h
  obtain ⟨drained, hd, h⟩ := of_bind_eq_ok h
  obtain ⟨last, hst, h⟩ := of_bind_eq_ok h
  cases h
  obtain ⟨parts, hpr⟩ := drained_of_drain hp (bookkept_initial hs) (by simp) hd
  exact ⟨syms, parts, drained, last, ⟨hs, hd, hpr, hst⟩, rfl, rfl⟩

end

end TagAsm.Select

namespace TagAsm.Lower

/-- Code can be selected for what was lowered. -/
theorem Renders.prepared {src : Source.Program} {prog : Flow.Program} (h : Renders src prog) (debug colored : Bool) :
    Select.Context.Prepared ⟨prog, debug, colored⟩ := by
  refine ⟨fun id sub body hid hb => ⟨?_, ?_⟩, h.methods_lt, fun id hid => ?_⟩
  · exact (h.wellFormed.bodies id sub body hid hb).toSound
  · obtain ⟨fn, -, hs⟩ := h.exists_function hid
    exact hs.placed body hb
  · obtain ⟨fn, hf, hb⟩ := h.mem_defined.mp hid
    obtain ⟨sub, hsb, hs⟩ := h.exists_subroutine hf
    refine ⟨sub, hsb, ?_⟩
    rw [hs.body_isSome]
    exact hb.1

end TagAsm.Lower
