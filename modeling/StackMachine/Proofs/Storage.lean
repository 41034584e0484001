import StackMachine.Proofs.Calls

/-!
# Storage survives the stack

Storage and operand stack share one array, and a store may hit the stack. The stack cannot hit back:
a push lands above the mark, and the mark is no lower than any address ever stored to.

* `KeepsStorage`: what pops and pushes leave of a memory, and so every step that does not store;
* `Recorded`: a memory and the stores that it has seen;
* `stored_words_survive`: along every history each address stored to holds the word of the latest
  store there, and the mark is the highest such address.
-/
namespace StackMachine

namespace DataMemory

/-- From the one memory to the other, if the one is sound, the capacity, the mark and all words up
to the mark stay, and a stack above the mark stays above it. -/
def KeepsStorage (d e : DataMemory) : Prop :=
  d.Sound → e.Sound ∧ e.capacity = d.capacity ∧ e.limit = d.limit ∧
    (∀ i ≤ d.limit, e.cells[i]? = d.cells[i]?) ∧ (d.limit < d.sp → d.limit < e.sp)

theorem frame_keepsStorage : Frame KeepsStorage where
  refl _ h := ⟨h, rfl, rfl, fun _ _ => rfl, id⟩
  trans hde hef hd := by
    obtain ⟨he, hc1, hl1, hw1, hs1⟩ := hde hd
    obtain ⟨hf, hc2, hl2, hw2, hs2⟩ := hef he
    refine ⟨hf, hc2.trans hc1, hl2.trans hl1, fun i hi => ?_, fun h => ?_⟩
    · rw [hw2 i (by omega), hw1 i hi]
    · rw [← hl1] at h ⊢; exact hs2 (by rw [hl1] at h ⊢; exact hs1 h)
  pop d h := by
    refine ⟨h.pop, capacity_pop d, limit_pop d, fun i _ => by rw [cells_pop], fun hlt => ?_⟩
    rw [sp_pop]; split <;> omega
  push {d w e} he h := by
    obtain ⟨hlt, rfl⟩ := push_ok h he
    refine ⟨h.pushed hlt, capacity_pushed d w, rfl, fun i hi => ?_, fun _ => ?_⟩
    · exact getElem?_pushed_of_lt d w (by omega)
    · simp only [pushed]; omega

/-- The highest of some addresses, zero if there are none. -/
def highest (addresses : List Nat) : Nat := addresses.foldr max 0

theorem le_highest {addresses : List Nat} {a : Nat} (h : a ∈ addresses) :
    a ≤ highest addresses := by
  induction addresses with
  | nil => cases h
  | cons b rest ih =>
    simp only [highest, List.foldr_cons] at ih ⊢
    rcases List.mem_cons.mp h with rfl | h
    · omega
    · have := ih h; omega

theorem highest_lt_iff {addresses : List Nat} {n : Nat} (hn : 0 < n) :
    highest addresses < n ↔ ∀ a ∈ addresses, a < n := by
  induction addresses with
  | nil => simp [highest, hn]
  | cons b rest ih =>
    simp only [highest, List.foldr_cons, List.forall_mem_cons] at ih ⊢
    rw [← ih]; omega

/-- A memory in which some stores were carried out, latest first: the mark is the highest address of
theirs, each address holds the word stored there last, and address zero, before any store to it,
still holds zero. -/
structure Recorded (capacity : Nat) (log : List (Nat × Word)) (d : DataMemory) : Prop where
  sound : d.Sound
  capacity_eq : d.capacity = capacity
  limit_eq : d.limit = highest (log.map Prod.fst)
  latest : ∀ {a w}, log.lookup a = some w → d.cells[a]? = some w
  zero : log.lookup 0 = none → 0 < capacity → d.cells[0]? = some 0

theorem mem_of_lookup {log : List (Nat × Word)} {a : Nat} {w : Word} (h : log.lookup a = some w) :
    a ∈ log.map Prod.fst := by
  induction log with
  | nil => cases h
  | cons p log ih =>
    rw [List.lookup_cons] at h
    rw [List.map_cons]
    by_cases ha : a = p.1
    · rw [ha]; exact List.mem_cons_self
    · rw [beq_false_of_ne ha] at h; exact List.mem_cons_of_mem _ (ih h)

namespace Recorded

variable {capacity : Nat} {log : List (Nat × Word)} {d : DataMemory}

theorem empty (h : capacity < 2 ^ 63) : Recorded capacity [] (.empty capacity) := by
  refine ⟨sound_empty h, capacity_empty capacity, rfl, nofun, fun _ hpos => ?_⟩
  simp only [DataMemory.empty, Array.getElem?_replicate, if_pos hpos]

theorem keep (h : Recorded capacity log d) {e : DataMemory} (hk : KeepsStorage d e) :
    Recorded capacity log e := by
  obtain ⟨he, hcap, hlim, hcells, -⟩ := hk h.sound
  refine ⟨he, hcap.trans h.capacity_eq, hlim.trans h.limit_eq, fun {a w} hl => ?_,
    fun hl hpos => ?_⟩
  · rw [hcells a (by rw [h.limit_eq]; exact le_highest (mem_of_lookup hl))]
    exact h.latest hl
  · rw [hcells 0 (Nat.zero_le _)]
    exact h.zero hl hpos

theorem store (h : Recorded capacity log d) {a : Nat} (ha : a < d.capacity) (w : Word) :
    Recorded capacity ((a, w) :: log) (d.stored a w) := by
  refine ⟨h.sound.stored ha w, ?_, ?_, fun {b v} hl => ?_, fun hl hpos => ?_⟩
  · rw [capacity_stored, h.capacity_eq]
  · simp only [stored, List.map_cons, highest, List.foldr_cons]
    rw [h.limit_eq, Nat.max_comm]; rfl
  · rw [List.lookup_cons] at hl
    by_cases hb : b = a
    · subst hb
      rw [beq_self_eq_true] at hl
      cases hl
      exact getElem?_stored_self d ha w
    · rw [beq_false_of_ne hb] at hl
      rw [getElem?_stored_ne d (Ne.symm hb)]
      exact h.latest hl
  · rw [List.lookup_cons] at hl
    by_cases h0 : 0 = a
    · subst h0; rw [beq_self_eq_true] at hl; cases hl
    · rw [beq_false_of_ne h0] at hl
      rw [getElem?_stored_ne d (Ne.symm h0)]
      exact h.zero hl hpos

end Recorded

end DataMemory

namespace Session

open DataMemory

/-- The stores of a history, latest first. -/
def stores (past : List Session) : List (Nat × Word) := past.filterMap store?

/-- The addresses that a history stored to. -/
def addresses (past : List Session) : List Nat := (stores past).map Prod.fst

theorem addresses_cons_of_none {past : List Session} {s : Session} (h : s.store? = none) :
    addresses (s :: past) = addresses past := by
  unfold addresses stores
  rw [List.filterMap_cons_none h]

theorem addresses_cons_of_some {past : List Session} {s : Session} {a : Nat} {w : Word}
    (h : s.store? = some (a, w)) : addresses (s :: past) = a :: addresses past := by
  unfold addresses stores
  rw [List.filterMap_cons_some h, List.map_cons]

theorem recorded_next {capacity : Nat} {past : List Session} {s : Session}
    (h : Recorded capacity (stores past) s.machine.data) :
    Recorded capacity (stores (s :: past)) s.next.machine.data := by
  unfold stores at h ⊢
  cases hs : s.store? with
  | none =>
    rw [List.filterMap_cons_none hs]
    exact h.keep (next_data_of_store?_none frame_keepsStorage hs)
  | some p =>
    obtain ⟨a, w⟩ := p
    obtain ⟨ha, hd⟩ := next_data_of_store? hs
    rw [List.filterMap_cons_some hs, hd]
    refine (h.keep (frame_keepsStorage.dropTwo _)).store ?_ w
    simpa [dropTwo] using ha

/-- The memory of a fresh machine, driven by any calls, records the stores of the history. -/
theorem Calls.recorded {config : Config} (hlt : config.dataCapacity < 2 ^ 63) {program : Program}
    {m : Machine} (hm : Machine.ofProgram config program = .ok m) {console : Console}
    {past : List Session} {s : Session} (h : Calls ⟨m, console⟩ past s) :
    Recorded config.dataCapacity (stores past) s.machine.data := by
  obtain ⟨-, rfl⟩ := Machine.ofProgram_eq_ok_iff.mp hm
  refine h.closed (P := fun past s => Recorded config.dataCapacity (stores past) s.machine.data)
    ?_ ?_ ?_
  · intro past s hp; exact recorded_next hp
  · intro past s hp; exact hp
  · exact Recorded.empty hlt

theorem sound_next {s : Session} (h : s.machine.data.Sound) : s.next.machine.data.Sound := by
  cases hs : s.store? with
  | none => exact (next_data_of_store?_none frame_keepsStorage hs h).1
  | some p =>
    obtain ⟨ha, hd⟩ := next_data_of_store? hs
    obtain ⟨hn, hc, -⟩ := frame_keepsStorage.dropTwo _ h
    rw [hd]
    exact hn.stored (by omega) _

theorem limit_le_next {s : Session} (h : s.machine.data.Sound) :
    s.machine.data.limit ≤ s.next.machine.data.limit := by
  cases hs : s.store? with
  | none =>
    obtain ⟨-, -, hl, -⟩ := next_data_of_store?_none frame_keepsStorage hs h
    exact Nat.le_of_eq hl.symm
  | some p =>
    obtain ⟨-, hd⟩ := next_data_of_store? hs
    obtain ⟨-, -, hl, -⟩ := frame_keepsStorage.dropTwo _ h
    rw [hd]
    simp only [stored]
    omega

/-- The mark never goes down. -/
theorem Calls.limit_le {s t : Session} {later : List Session} (h : s.machine.data.Sound)
    (hl : Calls s later t) : s.machine.data.limit ≤ t.machine.data.limit := by
  refine (hl.closed (P := fun _ t => t.machine.data.Sound ∧
    s.machine.data.limit ≤ t.machine.data.limit) ?_ (fun _ _ hp => hp) ⟨h, Nat.le_refl _⟩).2
  intro _ t ⟨ht, hle⟩
  exact ⟨sound_next ht, Nat.le_trans hle (limit_le_next ht)⟩

/-- A step changes a word at or below the mark only by storing there. -/
theorem load_next {s : Session} (h : s.machine.data.Sound) (hpos : 0 < s.machine.data.capacity)
    {a : Nat} (ha : a ≤ s.machine.data.limit) (hs : ∀ w, s.store? ≠ some (a, w)) :
    s.next.machine.data.load a = s.machine.data.load a := by
  have hlimit := h.limit_le
  refine load_eq_of_cell (by omega) ?_
  cases hst : s.store? with
  | none =>
    obtain ⟨-, -, -, hw, -⟩ := next_data_of_store?_none frame_keepsStorage hst h
    exact hw a ha
  | some p =>
    obtain ⟨b, w⟩ := p
    obtain ⟨-, hd⟩ := next_data_of_store? hst
    obtain ⟨-, -, -, hw, -⟩ := frame_keepsStorage.dropTwo _ h
    have hne : b ≠ a := by rintro rfl; exact hs w hst
    rw [hd, getElem?_stored_ne _ hne, hw a ha]

/-- **Stored words survive.** Take a machine with a data memory of at least one and less than 2^63
words, any program and console, and any finite sequence of steps and runs, whether they succeed or
fault. Each address stored to holds the word of the latest store there. The mark is the highest
address stored to, and no further calls lower it. Address zero holds zero until a store. Whatever
the next step pushes, it changes a word that was stored, or the word at address zero, only by
storing to that address. -/
theorem stored_words_survive {config : Config} (hpos : 1 ≤ config.dataCapacity)
    (hlt : config.dataCapacity < 2 ^ 63) {program : Program} {m : Machine}
    (hm : Machine.ofProgram config program = .ok m) {console : Console}
    {past : List Session} {s : Session} (h : Calls ⟨m, console⟩ past s) :
    (∀ a w, (stores past).lookup a = some w → s.machine.data.load a = .ok w) ∧
    s.machine.data.limit = highest (addresses past) ∧
    (∀ later t, Calls s later t → s.machine.data.limit ≤ t.machine.data.limit) ∧
    ((stores past).lookup 0 = none → s.machine.data.load 0 = .ok 0) ∧
    ∀ a, a = 0 ∨ a ∈ addresses past → (∀ w, s.store? ≠ some (a, w)) →
      s.next.machine.data.load a = s.machine.data.load a := by
  have hr := h.recorded hlt hm
  refine ⟨fun a w hl => load_natCast _ (hr.latest hl), hr.limit_eq,
    fun later t hl => hl.limit_le hr.sound, fun hz => load_natCast _ (hr.zero hz hpos),
    fun a ha hs => load_next hr.sound (by rw [hr.capacity_eq]; exact hpos) ?_ hs⟩
  rcases ha with rfl | ha
  · exact Nat.zero_le _
  · rw [hr.limit_eq]; exact le_highest ha

/-- A program that stores 9 where its 1 lies on a stack that ends at address eight, and then
pushes. -/
def overwriting : Program :=
  .assemble [⟨.push, 1⟩, ⟨.push, 7⟩, ⟨.push, 9⟩, ⟨.sto, 0⟩, ⟨.push, 5⟩]

/-- The program in a data memory of eight words, and with nothing to read. -/
def overwriter : Session := ⟨.fresh ⟨8, 8⟩ overwriting, .ofBytes [] none⟩

theorem ofProgram_overwriting : Machine.ofProgram ⟨8, 8⟩ overwriting = .ok overwriter.machine :=
  Machine.ofProgram_eq_ok_iff.mpr ⟨by decide, rfl⟩

theorem stored_words_survive_in_stack :
    stores (visited 5 overwriter) = [(7, 9)] ∧
      (advance 4 overwriter).fault? = some (.stackCollision 6 7) ∧
      (advance 5 overwriter).machine.data.load 7 = .ok 9 ∧
      (advance 5 overwriter).machine.data.limit = 7 ∧
      (advance 5 overwriter).machine.data.load 0 = .ok 0 ∧
      (advance 6 overwriter).machine.data.load 7 =
        (advance 5 overwriter).machine.data.load 7 := by
  obtain ⟨hload, hlimit, -, hzero, hkeep⟩ :=
    stored_words_survive (by decide) (by decide) ofProgram_overwriting (calls_advance overwriter 5)
  refine ⟨rfl, by decide, hload 7 9 (by decide), hlimit, hzero (by decide), ?_⟩
  have hnone : (advance 5 overwriter).store? = none := rfl
  exact hkeep 7 (.inr (by decide)) (by rw [hnone]; nofun)

end Session

end StackMachine
