import CFunc.NandProg.Bus
import Mathlib.Data.List.Induction

/-!
Calls of the driver as traces of events on the chip's pins.

The chip listens while the last enable or disable is an enable. A monitor over
traces tells whether every cycle met a listening chip. Three of the driver's
functions open and close one bracket each, `nand_check_badblock` the one of
`read_oob`, and `nand_read_page` has the bracket of `read_oob` inside its own.
-/

namespace CFunc.NandProg

open CFunc.Lib

inductive Event where
  | enable
  | disable
  | cmd (n : Byte)
  | addr (n : Byte)
  | data_out (n : Byte)
  | data_in
  deriving DecidableEq, Repr

/-- A bus that writes down the events on the chip's pins. -/
def Bus.traced {σ : Type} (bus : Bus σ) : Bus (σ × List Event) where
  enable s := (bus.enable s.1, s.2 ++ [.enable])
  disable s := (bus.disable s.1, s.2 ++ [.disable])
  cmd n s := (bus.cmd n s.1, s.2 ++ [.cmd n])
  addr n s := (bus.addr n s.1, s.2 ++ [.addr n])
  put n s := (bus.put n s.1, s.2 ++ [.data_out n])
  get s := ((bus.get s.1).1, (bus.get s.1).2, s.2 ++ [.data_in])
  rs_encoding s := (bus.rs_encoding s.1, s.2)
  rs_decoding s := (bus.rs_decoding s.1, s.2)
  ecc_disable s := (bus.ecc_disable s.1, s.2)
  par s := bus.par s.1
  set_par j b s := (bus.set_par j b s.1, s.2)
  prdy s := (bus.prdy s.1, s.2)
  NFINTS s := bus.NFINTS s.1
  NFERR s := bus.NFERR s.1

/-- Whether the last enable or disable is an enable. -/
def enabled (trace : List Event) : Bool :=
  trace.foldl (fun on e =>
    match e with
    | .enable => true
    | .disable => false
    | _ => on) false

def Event.isCycle : Event → Bool
  | enable => false
  | disable => false
  | _ => true

/-- Every cycle meets an enabled chip. -/
def Listening (trace : List Event) : Prop :=
  ∀ before e after, trace = before ++ e :: after → e.isCycle = true → enabled before = true

/-! ### The monitor -/

inductive Monitor where
  /-- disabled, or never enabled -/
  | off
  | on
  /-- a cycle met a disabled chip -/
  | violated
  deriving DecidableEq, Repr

def Monitor.step : Monitor → Event → Monitor
  | violated, _ => violated
  | _, .enable => on
  | _, .disable => off
  | on, _ => on
  | off, _ => violated

def Monitor.run (m : Monitor) (trace : List Event) : Monitor := trace.foldl step m

@[simp] theorem Monitor.run_nil (m : Monitor) : m.run [] = m := rfl

@[simp] theorem Monitor.run_append (m : Monitor) (trace more : List Event) :
    m.run (trace ++ more) = (m.run trace).run more := List.foldl_append

@[simp] theorem Monitor.run_singleton (m : Monitor) (e : Event) : m.run [e] = m.step e := rfl

theorem Monitor.on_ne_violated : on ≠ violated := Monitor.noConfusion

@[simp] theorem Monitor.run_violated (trace : List Event) : violated.run trace = violated := by
  induction trace with
  | nil => rfl
  | cons e trace ih => exact ih

theorem enabled_concat (trace : List Event) (e : Event) :
    enabled (trace ++ [e]) = if e.isCycle then enabled trace else e = .enable := by
  rw [enabled, List.foldl_append]
  cases e <;> rfl

theorem listening_nil : Listening [] := by
  intro before e after split
  simp at split

theorem listening_concat (trace : List Event) (e : Event) :
    Listening (trace ++ [e]) ↔ Listening trace ∧ (e.isCycle = true → enabled trace = true) := by
  constructor
  · intro listening
    refine ⟨fun before e' after split => ?_, listening trace e [] rfl⟩
    exact listening before e' (after ++ [e]) (by rw [split, List.append_assoc, List.cons_append])
  · rintro ⟨listening, last⟩ before e' after split
    rcases List.eq_nil_or_concat after with rfl | ⟨after', e'', rfl⟩
    · obtain ⟨rfl, same⟩ := List.append_inj' split rfl
      obtain rfl := List.singleton_inj.mp same
      exact last
    · rw [List.concat_eq_append, ← List.cons_append, ← List.append_assoc] at split
      exact listening before e' after' (List.append_inj' split rfl).1

/-- The monitor tells of every trace whether it is listened to. -/
theorem Monitor.run_off (trace : List Event) :
    Listening trace ∧ off.run trace = (if enabled trace then on else off) ∨
      ¬ Listening trace ∧ off.run trace = violated := by
  induction trace using List.reverseRecOn with
  | nil => exact .inl ⟨listening_nil, rfl⟩
  | append_singleton trace e ih =>
      rw [listening_concat, enabled_concat, run_append, run_singleton]
      rcases ih with ⟨listening, ran⟩ | ⟨not_listening, ran⟩
      · rw [ran]
        cases on : enabled trace with
        | true => cases e <;> exact .inl ⟨⟨listening, fun _ => rfl⟩, rfl⟩
        | false =>
            cases e with
            | enable => exact .inl ⟨⟨listening, Bool.noConfusion⟩, rfl⟩
            | disable => exact .inl ⟨⟨listening, Bool.noConfusion⟩, rfl⟩
            | _ => exact .inr ⟨fun both => Bool.noConfusion (both.2 rfl), rfl⟩
      · rw [ran]
        exact .inr ⟨fun both => not_listening both.1, rfl⟩

/-- Without a violation the monitor stands where the enable pin does. -/
theorem Monitor.off_iff (trace : List Event) :
    off.run trace = off ↔ Listening trace ∧ enabled trace = false := by
  rcases run_off trace with ⟨listening, ran⟩ | ⟨not_listening, ran⟩
  · rw [ran]
    cases enabled trace with
    | true => exact iff_of_false Monitor.noConfusion fun both => Bool.noConfusion both.2
    | false => exact iff_of_true rfl ⟨listening, rfl⟩
  · rw [ran]
    exact iff_of_false Monitor.noConfusion fun both => not_listening both.1

/-! ### What stretches of the driver do to the monitor -/

/-- From `s` to `t` the trace grows, and takes the monitor from `m` to `m'`. -/
def Leads {σ : Type} (m : Monitor) (s t : σ × List Event) (m' : Monitor) : Prop :=
  ∃ more, t.2 = s.2 ++ more ∧ m.run more = m'

namespace Leads

variable {σ : Type} {s t u : σ × List Event} {m m' m'' : Monitor}

theorem refl (m : Monitor) (s : σ × List Event) : Leads m s s m := ⟨[], by simp, rfl⟩

theorem trans (first : Leads m s t m') (second : Leads m' t u m'') : Leads m s u m'' := by
  obtain ⟨more, grown, rfl⟩ := first
  obtain ⟨more', grown', rfl⟩ := second
  exact ⟨more ++ more', by rw [grown', grown, List.append_assoc], Monitor.run_append _ _ _⟩

/-- Whatever happens, a violation stays. -/
theorem of_violated (leads : Leads m s t m') : Leads .violated s t .violated := by
  obtain ⟨more, grown, _⟩ := leads
  exact ⟨more, grown, Monitor.run_violated _⟩

theorem run_eq (leads : Leads m s t m') (before : Monitor.off.run s.2 = m) :
    Monitor.off.run t.2 = m' := by
  obtain ⟨more, grown, rfl⟩ := leads
  rw [grown, Monitor.run_append, before]

end Leads

section Stretches

variable {σ : Type} (bus : Bus σ) (g : Params) {s : σ × List Event}

/-- A bus operation that is no event. -/
theorem Leads.silent {t : σ × List Event} {m : Monitor} (same : t.2 = s.2) : Leads m s t m :=
  ⟨[], by rw [same, List.append_nil], rfl⟩

theorem leads_enable {m : Monitor} (kept : m ≠ .violated) :
    Leads m s (bus.traced.enable s) .on := by
  refine ⟨[.enable], rfl, ?_⟩
  cases m with
  | off => rfl
  | on => rfl
  | violated => exact absurd rfl kept

theorem leads_disable {m : Monitor} (kept : m ≠ .violated) :
    Leads m s (bus.traced.disable s) .off := by
  refine ⟨[.disable], rfl, ?_⟩
  cases m with
  | off => rfl
  | on => rfl
  | violated => exact absurd rfl kept

theorem leads_cmd (n : Byte) : Leads .on s (bus.traced.cmd n s) .on := ⟨[.cmd n], rfl, rfl⟩

theorem leads_addr (n : Byte) : Leads .on s (bus.traced.addr n s) .on := ⟨[.addr n], rfl, rfl⟩

theorem leads_put (n : Byte) : Leads .on s (bus.traced.put n s) .on := ⟨[.data_out n], rfl, rfl⟩

theorem leads_get : Leads .on s (bus.traced.get s).2 .on := ⟨[.data_in], rfl, rfl⟩

/-- A stretch, then a cycle that only some page sizes have. -/
theorem Leads.maybe {c : Prop} {_ : Decidable c} {m : Monitor} {t u : σ × List Event}
    (stretch : Leads m s t .on) (cycle : Leads .on t u .on) :
    Leads m s (if c then u else t) .on := by
  split
  · exact stretch.trans cycle
  · exact stretch

/-- A loop whose rounds keep the chip enabled. -/
theorem Leads.count {τ : Type} {body : Nat → τ → τ} (trace : τ → σ × List Event)
    (round : ∀ i x, Leads .on (trace x) (trace (body i x)) .on) (n : Nat) (x : τ) :
    Leads .on (trace x) (trace (Loop.count body n x)) .on := by
  induction n with
  | zero => exact .refl _ _
  | succ n ih => exact ih.trans (round n _)

theorem leads_rowCycles (row rowaddr : Nat) :
    Leads .on s (bus.traced.rowCycles row rowaddr s) .on := by
  induction row generalizing rowaddr s with
  | zero => exact .refl _ _
  | succ row ih => exact (leads_addr bus _).trans (ih _)

theorem leads_write8 (buf : Nat → Byte) (start count : Nat) :
    Leads .on s (bus.traced.nand_data_write8 buf start count s) .on :=
  Leads.count id (fun _ _ => leads_put bus _) count s

theorem leads_read8 (start count : Nat) (t : (Nat → Byte) × σ × List Event) :
    Leads .on t.2 (bus.traced.nand_data_read8 start count t).2 .on :=
  Leads.count Prod.snd (fun _ _ => ⟨[.data_in], rfl, rfl⟩) count t

/-- The EMC's registers are not on the chip's pins. -/
theorem leads_set_pars (pars : Nat → Byte) (n : Nat) :
    Leads .on s (Loop.count (fun j s => bus.traced.set_par j (pars j) s) n s) .on := by
  induction n with
  | zero => exact .refl _ _
  | succ n ih => exact ih.trans (.silent rfl)

theorem leads_decoded : Leads .on s (bus.traced.ecc_disable (bus.traced.prdy s)) .on := .silent rfl

theorem leads_finish : Leads .on s (bus.traced.finish s).2 .off := by
  have status := (leads_cmd bus CMD_READ_STATUS (s := s)).trans (leads_get bus)
  have closed := status.trans (leads_disable bus (by decide))
  simp only [Bus.finish]
  split
  · exact closed
  · exact closed

/-! ### The driver's functions -/

variable {m : Monitor}

theorem leads_read_oob (kept : m ≠ .violated) (buf : Nat → Byte) (size pg : Nat) :
    Leads m s (bus.traced.read_oob g buf size pg s).2 .off := by
  have command (t : σ × List Event) : Leads .on t
      (if g.pagesize = 512 then bus.traced.cmd CMD_READC t else bus.traced.cmd CMD_READA t)
      .on := by
    split
    · exact leads_cmd bus _
    · exact leads_cmd bus _
  unfold Bus.read_oob
  refine .trans ?_ (leads_disable bus Monitor.on_ne_violated)
  refine .trans ?_ (leads_read8 bus _ _ _)
  refine .maybe ?_ (leads_cmd bus _)
  refine .trans ?_ (leads_rowCycles bus _ _)
  refine .maybe ?_ (leads_addr bus _)
  refine .trans ?_ (leads_addr bus _)
  exact (leads_enable bus kept).trans (command _)

theorem leads_check_badblock (kept : m ≠ .violated) (oob_buf : Nat → Byte) (blk : Nat) :
    Leads m s (bus.traced.nand_check_badblock g oob_buf blk s).2 .off := by
  have bracket := leads_read_oob bus g kept oob_buf g.oobsize (g.lastPage blk) (s := s)
  simp only [Bus.nand_check_badblock]
  split
  · exact bracket
  · exact bracket

theorem leads_mark_badblock (kept : m ≠ .violated) (blk : Nat) :
    Leads m s (bus.traced.nand_mark_badblock g blk s).2 .off := by
  unfold Bus.nand_mark_badblock
  refine .trans ?_ (leads_finish bus)
  refine .trans ?_ (leads_cmd bus _)
  refine .trans ?_ (leads_write8 bus _ _ _)
  refine .trans ?_ (leads_rowCycles bus _ _)
  refine .maybe ?_ (leads_addr bus _)
  refine .trans ?_ (leads_addr bus _)
  refine .trans ?_ (leads_cmd bus _)
  exact (leads_enable bus kept).trans (.maybe (.refl _ _) (leads_cmd bus _))

theorem leads_erase_block (kept : m ≠ .violated) (blk : Nat) :
    Leads m s (bus.traced.nand_erase_block g blk s).2 .off := by
  unfold Bus.nand_erase_block
  refine .trans ?_ (leads_finish bus)
  refine .trans ?_ (leads_cmd bus _)
  refine .trans ?_ (leads_rowCycles bus _ _)
  exact (leads_enable bus kept).trans (leads_cmd bus _)

theorem leads_programChunk (databuf : Nat → Byte) (i : Nat) (t : (Nat → Byte) × σ × List Event) :
    Leads .on t.2 (bus.traced.programChunk databuf i t).2 .on := by
  unfold Bus.programChunk
  refine .trans ?_ (.silent rfl)
  refine .trans ?_ (leads_write8 bus _ _ _)
  exact .silent rfl

theorem leads_program_page (kept : m ≠ .violated) (databuf oobbuf : Nat → Byte)
    (pageaddr ecc_pos : Nat) :
    Leads m s (bus.traced.nand_program_page g databuf oobbuf pageaddr ecc_pos s).2.2 .off := by
  unfold Bus.nand_program_page
  refine .trans ?_ (leads_finish bus)
  refine .trans ?_ (leads_cmd bus _)
  refine .trans ?_ (leads_write8 bus _ _ _)
  refine .trans ?_ (Leads.count Prod.snd (leads_programChunk bus databuf) _ (fun _ => 0, _))
  refine .trans ?_ (leads_rowCycles bus _ _)
  refine .maybe ?_ (leads_addr bus _)
  refine .trans ?_ (leads_addr bus _)
  refine .trans ?_ (leads_cmd bus _)
  exact (leads_enable bus kept).trans (.maybe (.refl _ _) (leads_cmd bus _))

theorem leads_readChunk (oobbuf : Nat → Byte) (ecc_pos i : Nat)
    (t : (Nat → Byte) × σ × List Event) :
    Leads .on t.2 (bus.traced.readChunk oobbuf ecc_pos i t).2 .on := by
  simp only [Bus.readChunk]
  refine .trans ?_ (leads_decoded bus)
  refine .trans ?_ (leads_set_pars bus _ _)
  exact leads_read8 bus _ _ (t.1, bus.traced.rs_decoding t.2)

/-- The bracket of `read_oob` closes before the page is addressed. -/
theorem leads_read_page (kept : m ≠ .violated) (databuf oobbuf : Nat → Byte)
    (pageaddr ecc_pos : Nat) :
    Leads m s (bus.traced.nand_read_page g databuf oobbuf pageaddr ecc_pos s).2.2 .violated := by
  unfold Bus.nand_read_page
  refine .trans ?_ (leads_disable bus Monitor.on_ne_violated).of_violated
  refine .trans ?_ (Leads.count Prod.snd (leads_readChunk bus _ ecc_pos) _ (databuf, _)).of_violated
  refine (((leads_enable bus kept).trans
    (leads_read_oob bus g Monitor.on_ne_violated oobbuf g.oobsize pageaddr)).trans
    (⟨[.cmd CMD_READA], rfl, rfl⟩ : Leads .off _ (bus.traced.cmd CMD_READA _) .violated)).trans ?_
  refine (?_ : Leads .on _ _ .on).of_violated
  refine .maybe ?_ (leads_cmd bus _)
  refine .trans ?_ (leads_rowCycles bus _ _)
  refine .maybe ?_ (leads_addr bus _)
  exact leads_addr bus _

end Stretches

/-! ### Sequences of calls -/

inductive DriverCall where
  | nand_check_badblock (oob_buf : Nat → Byte) (blk : Nat)
  | nand_mark_badblock (blk : Nat)
  | nand_erase_block (blk : Nat)
  | nand_program_page (databuf oobbuf : Nat → Byte) (pageaddr ecc_pos : Nat)
  | nand_read_page (databuf oobbuf : Nat → Byte) (pageaddr ecc_pos : Nat)

def DriverCall.isReadPage : DriverCall → Bool
  | nand_read_page .. => true
  | _ => false

def DriverCall.run {σ : Type} (bus : Bus σ) (g : Params) (s : σ) : DriverCall → σ
  | nand_check_badblock oob_buf blk => (bus.nand_check_badblock g oob_buf blk s).2
  | nand_mark_badblock blk => (bus.nand_mark_badblock g blk s).2
  | nand_erase_block blk => (bus.nand_erase_block g blk s).2
  | nand_program_page databuf oobbuf pageaddr ecc_pos =>
      (bus.nand_program_page g databuf oobbuf pageaddr ecc_pos s).2.2
  | nand_read_page databuf oobbuf pageaddr ecc_pos =>
      (bus.nand_read_page g databuf oobbuf pageaddr ecc_pos s).2.2

/-- Calls in a row, each with the globals as they stand at it. -/
def Bus.calls {σ : Type} (bus : Bus σ) (calls : List (Params × DriverCall)) (s : σ) : σ :=
  calls.foldl (fun s c => c.2.run bus c.1 s) s

/-- The events of calls from `nand_init_4740` on. -/
def Bus.trace {σ : Type} (bus : Bus σ) (s : σ) (calls : List (Params × DriverCall)) : List Event :=
  (bus.traced.calls calls (s, [])).2

/-- Every cycle meets an enabled chip, and each call leaves the chip disabled. -/
def Disciplined {σ : Type} (bus : Bus σ) (s : σ) (calls : List (Params × DriverCall)) : Prop :=
  Listening (bus.trace s calls) ∧
    ∀ done due, calls = done ++ due → enabled (bus.trace s done) = false

section Calls

variable {σ : Type} (bus : Bus σ)

theorem DriverCall.leads (g : Params) (s : σ × List Event) {m : Monitor} (kept : m ≠ .violated)
    (c : DriverCall) :
    Leads m s (c.run bus.traced g s) (if c.isReadPage then .violated else .off) := by
  cases c with
  | nand_check_badblock oob_buf blk => exact leads_check_badblock bus g kept oob_buf blk
  | nand_mark_badblock blk => exact leads_mark_badblock bus g kept blk
  | nand_erase_block blk => exact leads_erase_block bus g kept blk
  | nand_program_page databuf oobbuf pageaddr ecc_pos =>
      exact leads_program_page bus g kept databuf oobbuf pageaddr ecc_pos
  | nand_read_page databuf oobbuf pageaddr ecc_pos =>
      exact leads_read_page bus g kept databuf oobbuf pageaddr ecc_pos

theorem leads_calls (calls : List (Params × DriverCall)) (s : σ × List Event) :
    Leads .off s (bus.traced.calls calls s)
      (if calls.any (·.2.isReadPage) then .violated else .off) := by
  induction calls generalizing s with
  | nil => exact .refl _ s
  | cons c calls ih =>
      have first := c.2.leads bus c.1 s (m := .off) Monitor.noConfusion
      have rest := ih (c.2.run bus.traced c.1 s)
      rw [List.any_cons]
      cases reads : c.2.isReadPage with
      | true =>
          rw [reads] at first
          exact first.trans rest.of_violated
      | false =>
          rw [reads] at first
          exact first.trans rest

/-- Where the monitor stands after some calls. -/
theorem run_trace (s : σ) (calls : List (Params × DriverCall)) :
    Monitor.off.run (bus.trace s calls) =
      if calls.any (·.2.isReadPage) then .violated else .off :=
  (leads_calls bus calls (s, [])).run_eq rfl

/-- For every bus and every sequence of calls the driver talks to an enabled
chip, and leaves it disabled, exactly when `nand_read_page` is not called. -/
theorem disciplined_iff (s : σ) (calls : List (Params × DriverCall)) :
    Disciplined bus s calls ↔ ∀ c ∈ calls, c.2.isReadPage = false := by
  have at_end := run_trace bus s calls
  constructor
  · rintro ⟨listening, closed⟩
    rw [(Monitor.off_iff _).mpr ⟨listening, closed calls [] (List.append_nil _).symm⟩] at at_end
    split at at_end
    · cases at_end
    · rename_i none_reads
      simpa using none_reads
  · intro none_reads
    have stays (done due : List (Params × DriverCall)) (split : calls = done ++ due) :
        Listening (bus.trace s done) ∧ enabled (bus.trace s done) = false := by
      rw [← Monitor.off_iff, run_trace, if_neg]
      rw [List.any_eq_true]
      rintro ⟨c, member, reads⟩
      rw [none_reads c (split ▸ List.mem_append_left _ member)] at reads
      cases reads
    exact ⟨(stays calls [] (List.append_nil _).symm).1, fun done due split =>
      (stays done due split).2⟩

end Calls

/-- After `read_oob` has disabled the chip, `nand_read_page` sends its read command. -/
theorem read_page_not_disciplined :
    ¬ ∀ (bus : Bus Unit) (calls : List (Params × DriverCall)), Disciplined bus () calls := by
  intro always
  let bus : Bus Unit :=
    { enable := id
      disable := id
      cmd := fun _ => id
      addr := fun _ => id
      put := fun _ => id
      get := fun s => (0, s)
      rs_encoding := id
      rs_decoding := id
      ecc_disable := id
      par := fun _ _ => 0
      set_par := fun _ _ => id
      prdy := id
      NFINTS := fun _ => 0
      NFERR := fun _ _ => 0 }
  let calls : List (Params × DriverCall) :=
    [(nand_init_4740, .nand_read_page (fun _ => 0) (fun _ => 0) 0 28)]
  have disciplined := always bus calls
  have violated : Monitor.off.run (bus.trace () calls) = .violated := run_trace bus () calls
  rw [(Monitor.off_iff _).mpr ⟨disciplined.1, disciplined.2 calls [] rfl⟩] at violated
  cases violated

end CFunc.NandProg
