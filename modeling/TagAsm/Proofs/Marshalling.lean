import TagAsm.Proofs.Processor

/-!
# Whole calls

Around a call the stack grows by what the arguments take, and shrinks again after it. Whatever the frame was like before, the
stack is aligned where control is transferred, and every argument is in its place there; what was taken is given back after the
call (`marshal_release`).
-/

namespace TagAsm.Asm

/-! ## Growing and shrinking -/

section

variable (size : Int) (args : List Argument)

/-- With the padding and what is pushed, the stack is aligned, whatever its size was. -/
theorem CallFrame.dvd_ofArguments : (16 : Int) ∣ size + (ofArguments size args).total ∧
      0 ≤ (ofArguments size args).padding ∧ (ofArguments size args).padding < 16 := by
  simp only [ofArguments, total]
  generalize (8 : Int) * ((args.drop Register.arguments.length).length : Nat) = pushed
  have hn := Int.tmod_lt_of_pos (size + pushed) (by decide : (0 : Int) < 16)
  have hn' := Int.lt_tmod_of_pos (size + pushed) (by decide : (0 : Int) < 16)
  have hs := Int.mul_tdiv_add_tmod (size + pushed) 16
  generalize (size + pushed).tmod 16 = rest at hn hn' hs ⊢
  rw [Int.tmod_eq_emod_of_nonneg (by omega)]
  omega

theorem CallFrame.pushed_ofArguments : (ofArguments size args).pushed = 8 * ((args.drop Register.arguments.length).length : Nat) := rfl

theorem CallFrame.total_nonneg : 0 ≤ (ofArguments size args).total := by
  have hp := (dvd_ofArguments size args).2.1
  have hps := pushed_ofArguments size args
  rw [total]
  omega

end

/-- The release moves the stack pointer back, and that is all. -/
theorem executeAll_releaseCode {addrs : String → Int} {r : Processor} {top : Int} {call : CallFrame} (hn : 0 ≤ call.total)
    (hs : r.registers .rsp = some (top - call.total)) :
    r.executeAll addrs (releaseCode call) = r.put .rsp (some top) := by
  rw [releaseCode]
  split
  · rw [Processor.executeAll_cons, Processor.executeAll_nil, Processor.execute_addq hs, Int.sub_add_cancel]
  · have hz : call.total = 0 := by omega
    rw [hz, Int.sub_zero] at hs
    exact (r.put_self hs).symm

/-- Every argument of a call is brought into its place, and what that takes of the stack is counted and aligned. The release undoes
it: from every state in which the stack pointer is where the call left it, it comes back to where it was, and nothing else changes. -/
theorem marshal_release (addresses : String → Int) (p : Processor) (base top : Int) (frame inside : Frame) (arguments : List Argument)
    (call : CallFrame) (code : List Instruction) (hmarshal : frame.marshal arguments = (call, code, inside))
    (hbase : p.registers .rbp = some base) (htop : p.registers .rsp = some top)
    (harguments : ∀ argument ∈ arguments, argument.ReadsAbove (top - base)) :
    Marshalled addresses p top call arguments (p.executeAll addresses code) ∧
      inside = { frame with size := frame.size + (call.padding + call.pushed) } ∧ (16 : Int) ∣ inside.size ∧
      0 ≤ call.padding ∧ call.padding < 16 ∧ call.pushed = 8 * ((arguments.length - Register.arguments.length : Nat) : Int) ∧
      (inside.release call).2 = frame ∧
      ∀ r : Processor, r.registers .rsp = some (top - call.total) →
        r.executeAll addresses (inside.release call).1 = r.put .rsp (some top) := by
  obtain ⟨rfl, hrest⟩ := Prod.mk.inj hmarshal
  obtain ⟨rfl, rfl⟩ := Prod.mk.inj hrest
  obtain ⟨haligned, hpadding, hless⟩ := CallFrame.dvd_ofArguments frame.size arguments
  have hpushed := CallFrame.pushed_ofArguments frame.size arguments
  refine ⟨marshalled_executeAll hbase htop hpadding hpushed harguments, rfl, haligned, hpadding, hless, ?_, ?_, fun r hstack => ?_⟩
  · rw [hpushed, List.length_drop]
  · simp only [Frame.release, Frame.shrink, Frame.grow, Int.add_sub_cancel]
  · exact executeAll_releaseCode (CallFrame.total_nonneg frame.size arguments) hstack

/-- Eight arguments of all kinds, two of which are pushed below eight bytes of padding, and released again. -/
theorem marshal_release_eight : let addresses : String → Int := fun _ => 4096
    let p : Processor := ⟨fun register => if register = .rbp then some 1000 else if register = .rsp then some 976 else none,
      fun address => if address < 976 then none else some (2 * address)⟩
    let frame : Frame := ⟨[], 24⟩
    let arguments : List Argument := [.value ⟨-24, false⟩, .value ⟨-24, true⟩, .load (-16), .immediate 7, .symbol "text", .load 16,
      .value ⟨16, true⟩, .load (-8)]
    ∃ code inside, frame.marshal arguments = (⟨8, 16⟩, code, inside) ∧ inside.size = 48 ∧
      (p.executeAll addresses code).registers .rdi = some 976 ∧ (p.executeAll addresses code).registers .r8 = some 4096 ∧
      (p.executeAll addresses code).memory 952 = some 2032 ∧ (p.executeAll addresses code).memory 960 = some 1984 ∧
      ((p.executeAll addresses code).executeAll addresses (inside.release ⟨8, 16⟩).1).registers .rsp = some 976 ∧
      (inside.release ⟨8, 16⟩).2 = frame := by
  intro addresses p frame arguments
  have harguments : ∀ argument ∈ arguments, argument.ReadsAbove (976 - 1000) := by
    simp [arguments, Argument.ReadsAbove]
  have hmarshal : frame.marshal arguments = (⟨8, 16⟩, marshalCode ⟨8, 16⟩ arguments, ⟨[], 48⟩) := by decide +kernel
  obtain ⟨hplaced, -, -, -, -, -, hframe, hrelease⟩ :=
    marshal_release addresses p 1000 976 frame _ arguments ⟨8, 16⟩ _ hmarshal rfl rfl harguments
  refine ⟨_, _, hmarshal, rfl, ?_, ?_, ?_, ?_, ?_, hframe⟩
  · exact hplaced.registers 0 _ .rdi rfl rfl
  · exact hplaced.registers 4 _ .r8 rfl rfl
  · exact hplaced.pushed 0 _ rfl
  · exact hplaced.pushed 1 _ rfl
  · rw [hrelease _ hplaced.stack, Processor.registers_put_self]

end TagAsm.Asm
