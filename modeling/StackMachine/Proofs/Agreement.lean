import StackMachine.Proofs.Frame

/-!
# Two machines side by side

Two machines that go through the same instructions, related by some `R`. Some faults of the first
machine are excused, and the second need not follow it into them.

* `Agree`: the results of one action in both, the same in all that can be seen;
* `Lockstep`: a relation that the parts of instructions keep; `Lockstep.execute`: then so does every
  instruction, loads, stores and prints apart;
* `Alike D`: the machines differ in their data memories alone, which are related by `D`;
  `Alike.lockstep`: pops and pushes have to keep `D`, and that is enough;
* `step_agree`: then so does every step, if both fetch the same word.
-/
namespace StackMachine

/-- A relation between two memories that pops and pushes on both keep. Pops yield the same word,
and a push succeeds on both or fails on both in the same way, unless its fault on the first is
excused. -/
structure DataMemory.Lockstep (excused : Fault → Prop) (D : DataMemory → DataMemory → Prop) :
    Prop where
  pop_word : ∀ {d e}, D d e → e.pop.1 = d.pop.1
  pop : ∀ {d e}, D d e → D d.pop.2 e.pop.2
  push_ok : ∀ {d e w d'}, D d e → d.push w = .ok d' → ∃ e', e.push w = .ok e' ∧ D d' e'
  push_error : ∀ {d e w f}, D d e → d.push w = .error f → excused f ∨ e.push w = .error f

namespace Session

variable {α β : Type}

/-- Two sessions at the same point of the same program, with related data memories. -/
structure Alike (D : DataMemory → DataMemory → Prop) (s t : Session) : Prop where
  data : D s.machine.data t.machine.data
  running : t.machine.running = s.machine.running
  pc : t.machine.pc = s.machine.pc
  calls : t.machine.calls = s.machine.calls
  console : t.console = s.console

/-- The results of an action in two sessions: the same value or the same fault in related sessions,
or an excused fault in the first. -/
inductive Agree (excused : Fault → Prop) (R : Session → Session → Prop) :
    EStateM.Result Fault Session α → EStateM.Result Fault Session α → Prop
  | ok (v : α) {s t : Session} (h : R s t) : Agree excused R (.ok v s) (.ok v t)
  | error (f : Fault) {s t : Session} (h : R s t) : Agree excused R (.error f s) (.error f t)
  | excused {f : Fault} {s : Session} {r : EStateM.Result Fault Session α} (h : excused f) :
    Agree excused R (.error f s) r

variable {excused : Fault → Prop} {R : Session → Session → Prop}

/-- Where no fault is excused, results that agree have the same fault and end in related
sessions. -/
theorem Agree.same {x y : EStateM.Result Fault Session α} (h : Agree excused R x y)
    (hx : ∀ f ∈ faultOf? x, ¬ excused f) : faultOf? y = faultOf? x ∧ R (after x) (after y) := by
  cases h with
  | ok v hr => exact ⟨rfl, hr⟩
  | error f hr => exact ⟨rfl, hr⟩
  | excused hf => exact absurd hf (hx _ rfl)

theorem Agree.bind {x y : Exec α} {k l : α → Exec β} {s t : Session}
    (hx : Agree excused R (x s) (y t))
    (hk : ∀ v s t, R s t → Agree excused R (k v s) (l v t)) :
    Agree excused R ((x >>= k) s) ((y >>= l) t) := by
  rw [bind_apply, bind_apply]
  generalize x s = r at hx
  generalize y t = q at hx
  cases hx with
  | ok v h => exact hk v _ _ h
  | error f h => exact .error f h
  | excused h => exact .excused h

theorem Agree.discard {x y : Exec α} {s t : Session} (hx : Agree excused R (x s) (y t)) :
    Agree excused R (discard x s) (discard y t) := by
  rw [discard_apply, discard_apply]
  generalize x s = r at hx
  generalize y t = q at hx
  cases hx with
  | ok v h => exact .ok () h
  | error f h => exact .error f h
  | excused h => exact .excused h

/-- A choice agrees if its condition is the same on both sides and both branches agree. -/
theorem Agree.ite (c : Prop) [Decidable c] {x y : Exec α} {s t : Session}
    (hx : Agree excused R (x s) (x t)) (hy : Agree excused R (y s) (y t)) :
    Agree excused R ((if c then x else y) s) ((if c then x else y) t) := by
  split
  · exact hx
  · exact hy

/-! ## Parts of instructions -/

namespace Alike

variable {D : DataMemory → DataMemory → Prop} {s t : Session}

theorem withData (h : Alike D s t) {D' : DataMemory → DataMemory → Prop} {d e : DataMemory}
    (hd : D' d e) : Alike D' (s.withData d) (t.withData e) :=
  ⟨hd, h.running, h.pc, h.calls, h.console⟩

/-- The words may differ: only the instruction register shows them. -/
theorem fetched (h : Alike D s t) (w v : Word) : Alike D (s.fetched w) (t.fetched v) :=
  ⟨h.data, h.running, by simp only [Session.fetched, h.pc], h.calls, h.console⟩

theorem pop (hD : DataMemory.Lockstep excused D) (h : Alike D s t) :
    Agree excused (Alike D) (pop s) (pop t) := by
  rw [pop_apply, pop_apply, hD.pop_word h.data]
  exact .ok _ (h.withData (hD.pop h.data))

theorem push (hD : DataMemory.Lockstep excused D) (h : Alike D s t) (w : Word) :
    Agree excused (Alike D) (push w s) (push w t) := by
  rw [push_apply, push_apply]
  cases hp : s.machine.data.push w with
  | ok d =>
    obtain ⟨e, he, hde⟩ := hD.push_ok h.data hp
    rw [he]
    exact .ok () (h.withData hde)
  | error f =>
    rcases hD.push_error h.data hp with hf | he
    · exact .excused hf
    · rw [he]; exact .error f h

theorem faultHere (h : Alike D s t) (fault : Address → Fault) :
    Agree excused (Alike D) (faultHere fault s) (faultHere fault t) := by
  unfold Session.faultHere Machine.site
  rw [h.pc]
  exact .error _ h

theorem halt (h : Alike D s t) : Agree excused (Alike D)
    (update ({ · with running := false }) s) (update ({ · with running := false }) t) :=
  .ok () ⟨h.data, rfl, h.pc, h.calls, h.console⟩

theorem jump (h : Alike D s t) (pc : Nat) :
    Agree excused (Alike D) (jump pc s) (jump pc t) :=
  .ok () ⟨h.data, h.running, rfl, h.calls, h.console⟩

theorem call (h : Alike D s t) (pc : Nat) :
    Agree excused (Alike D) (call pc s) (call pc t) := by
  refine .ok () ⟨h.data, h.running, rfl, ?_, h.console⟩
  show t.machine.pc :: t.machine.calls = s.machine.pc :: s.machine.calls
  rw [h.pc, h.calls]

theorem ret (h : Alike D s t) : Agree excused (Alike D) (ret s) (ret t) := by
  unfold Session.ret Machine.site
  dsimp only
  rw [h.calls, h.pc]
  cases s.machine.calls with
  | nil => exact .error _ h
  | cons pc calls => exact .ok () ⟨h.data, h.running, rfl, rfl, h.console⟩

theorem read (h : Alike D s t) : Agree excused (Alike D) (read s) (read t) := by
  unfold Session.read
  dsimp only
  rw [h.console]
  cases s.console.read with
  | ok w console => exact .ok w ⟨h.data, h.running, h.pc, h.calls, rfl⟩
  | error f console => exact .error f ⟨h.data, h.running, h.pc, h.calls, rfl⟩

theorem print (h : Alike D s t) (w : Word) :
    Agree excused (Alike D) (print w s) (print w t) := by
  unfold Session.print
  dsimp only
  rw [h.console]
  cases s.console.print w with
  | ok u console => exact .ok u ⟨h.data, h.running, h.pc, h.calls, rfl⟩
  | error f console => exact .error f ⟨h.data, h.running, h.pc, h.calls, rfl⟩

end Alike

/-! ## Instructions and steps -/

/-- A relation between two sessions that the parts of instructions keep. Loads, stores and prints
are not among them: they show what the sessions may differ in. -/
structure Lockstep (excused : Fault → Prop) (R : Session → Session → Prop) : Prop where
  pop : ∀ {s t}, R s t → Agree excused R (pop s) (pop t)
  push : ∀ {s t}, R s t → ∀ w, Agree excused R (push w s) (push w t)
  division : ∀ {s t}, R s t →
    Agree excused R (faultHere .divisionByZero s) (faultHere .divisionByZero t)
  halt : ∀ {s t}, R s t →
    Agree excused R (update ({ · with running := false }) s) (update ({ · with running := false }) t)
  jump : ∀ {s t}, R s t → ∀ pc, Agree excused R (jump pc s) (jump pc t)
  call : ∀ {s t}, R s t → ∀ pc, Agree excused R (call pc s) (call pc t)
  ret : ∀ {s t}, R s t → Agree excused R (ret s) (ret t)
  read : ∀ {s t}, R s t → Agree excused R (read s) (read t)

/-- Every instruction has the same outcome in both sessions, if loads, stores and prints have. -/
theorem Lockstep.execute (hR : Lockstep excused R) {s t : Session} (h : R s t) (i : Instruction)
    (hload : i.opcode = .rvalue → Agree excused R (load i.target s) (load i.target t))
    (hstore : i.opcode = .sto → Agree excused R (execute i s) (execute i t))
    (hprint : i.opcode = .print → Agree excused R (execute i s) (execute i t)) :
    Agree excused R (execute i s) (execute i t) := by
  by_cases hsto : i.opcode = .sto
  · exact hstore hsto
  by_cases hpr : i.opcode = .print
  · exact hprint hpr
  unfold Session.execute
  cases hop : i.opcode with
  | halt => exact hR.halt h
  | push => exact hR.push h _
  | rvalue => exact .bind (hload hop) fun w _ _ h => hR.push h w
  | lvalue => exact hR.push h _
  | pop => exact .discard (hR.pop h)
  | sto => exact absurd hop hsto
  | copy => exact .bind (hR.pop h) fun w _ _ h => .bind (hR.push h w) fun _ _ _ h => hR.push h w
  | unary op => exact .bind (hR.pop h) fun w _ _ h => hR.push h _
  | binary op =>
    refine .bind (hR.pop h) fun right _ _ h => .bind (hR.pop h) fun left _ _ h => ?_
    cases op.eval? left right with
    | some w => exact hR.push h w
    | none => exact hR.division h
  | label => exact .ok () h
  | goto => exact hR.jump h _
  | gofalse => exact .bind (hR.pop h) fun w _ _ h => .ite _ (hR.jump h _) (.ok () h)
  | gotrue => exact .bind (hR.pop h) fun w _ _ h => .ite _ (hR.jump h _) (.ok () h)
  | print => exact absurd hop hpr
  | read => exact .bind (hR.read h) fun w _ _ h => hR.push h w
  | gosub => exact hR.call h _
  | ret => exact hR.ret h

theorem Alike.lockstep {D : DataMemory → DataMemory → Prop} (hD : DataMemory.Lockstep excused D) :
    Lockstep excused (Alike D) where
  pop h := h.pop hD
  push h w := h.push hD w
  division h := h.faultHere _
  halt h := h.halt
  jump h := h.jump
  call h := h.call
  ret h := h.ret
  read h := h.read

/-- Between machines that differ in their data memories alone, only loads and stores matter. -/
theorem execute_agree {D : DataMemory → DataMemory → Prop} (hD : DataMemory.Lockstep excused D)
    {s t : Session} (h : Alike D s t) (i : Instruction)
    (hload : i.opcode = .rvalue →
      Agree excused (Alike D) (load i.target s) (load i.target t))
    (hstore : i.opcode = .sto → Agree excused (Alike D) (execute i s) (execute i t)) :
    Agree excused (Alike D) (execute i s) (execute i t) := by
  refine (Alike.lockstep hD).execute h i hload hstore fun hop => ?_
  unfold execute
  rw [hop]
  exact .bind (h.pop hD) fun w _ _ h => h.print w

/-- A step has the same outcome in related sessions, if they fetch the same word, or the same fault,
and the word's instruction has. -/
theorem step_agree {s t : Session} (h : R s t) (hfetched : ∀ w, R (s.fetched w) (t.fetched w))
    (hpc : t.machine.pc = s.machine.pc)
    (hword : ∀ w, s.machine.code.fetch s.machine.pc = .ok w →
      t.machine.code.fetch s.machine.pc = .ok w)
    (hfetch : ∀ f, s.machine.code.fetch s.machine.pc = .error f →
      excused f ∨ t.machine.code.fetch s.machine.pc = .error f)
    (hexec : ∀ i w, s.instruction? = some i →
      Agree excused R (execute i (s.fetched w)) (execute i (t.fetched w))) :
    Agree excused R (step s) (step t) := by
  cases hi : s.instruction? with
  | none =>
    rcases step_of_instruction?_none hi with ⟨f, hf, hs⟩ | ⟨w, f, hw, hd, hs⟩ <;> rw [hs]
    · rcases hfetch f hf with hexcused | hf'
      · exact .excused hexcused
      · rw [← hpc] at hf'
        rw [step_of_fetch_error hf']
        exact .error f h
    · have hw' := hword w hw
      rw [← hpc] at hw'
      rw [step_of_decode_error hw' hd]
      exact .error f (hfetched w)
  | some i =>
    obtain ⟨w, hw, hd⟩ := instruction?_eq_some_iff.mp hi
    have hw' := hword w hw
    rw [← hpc] at hw'
    rw [step_of_decode_ok hw hd, step_of_decode_ok hw' hd]
    exact hexec i w hi

theorem Alike.step_agree {D : DataMemory → DataMemory → Prop} {s t : Session} (h : Alike D s t)
    (hword : ∀ w, s.machine.code.fetch s.machine.pc = .ok w →
      t.machine.code.fetch s.machine.pc = .ok w)
    (hfetch : ∀ f, s.machine.code.fetch s.machine.pc = .error f →
      excused f ∨ t.machine.code.fetch s.machine.pc = .error f)
    (hexec : ∀ i w, s.instruction? = some i →
      Agree excused (Alike D) (execute i (s.fetched w)) (execute i (t.fetched w))) :
    Agree excused (Alike D) (step s) (step t) :=
  Session.step_agree h (fun w => h.fetched w w) h.pc hword hfetch hexec

end Session

end StackMachine
