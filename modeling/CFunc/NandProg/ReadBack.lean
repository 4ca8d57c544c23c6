import CFunc.NandProg.Chip
import CFunc.NandProg.Device
import CFunc.NandProg.RsCorrect

/-!
A page programmed and read back through the ports.

The parities of the chunks go out behind the data, from `ecc_pos` of the OOB on,
and come back to the decoder chunk by chunk. Symbols that the decoder reports
are restored.
-/

namespace CFunc.NandProg

open CFunc.Lib CFunc.Lib.Buffer

namespace Device

variable (part : FlashPart) (emc : Emc) (d : Device) (g : Params)

/-! ### Programming -/

variable {d}

/-- `d'` is `d` with `data` written to the flash, and no cycle in between. -/
structure Sent (d d' : Device) (data : List Byte) : Prop where
  pages : d'.pages = d.pages
  area : d'.area = d.area
  command : d'.command = d.command
  cycles : d'.cycles = d.cycles
  written : d'.written = d.written ++ data
  presented : d'.presented = d.presented

theorem Sent.refl (d : Device) : Sent d d [] :=
  ⟨rfl, rfl, rfl, rfl, (List.append_nil _).symm, rfl⟩

theorem Sent.trans {d d' d'' : Device} {data more : List Byte} (first : Sent d d' data)
    (second : Sent d' d'' more) : Sent d d'' (data ++ more) where
  pages := second.pages.trans first.pages
  area := second.area.trans first.area
  command := second.command.trans first.command
  cycles := second.cycles.trans first.cycles
  written := by rw [second.written, first.written, List.append_assoc]
  presented := second.presented.trans first.presented

theorem sent_write8 (buf : Nat → Byte) (start count : Nat) :
    Sent d ((bus part emc).nand_data_write8 buf start count d) (slice buf start count) := by
  rw [write8_eq]
  exact ⟨rfl, rfl, rfl, rfl, rfl, rfl⟩

/-- A chunk goes out, and its parities come in. -/
theorem programChunk_eq (databuf ecc_buf : Nat → Byte) (i : Nat) :
    ∃ d', (bus part emc).programChunk databuf i (ecc_buf, d) =
        (blit ecc_buf (i * PAR_SIZE) (emc.parity (slice databuf (i * ECC_BLOCK) ECC_BLOCK))
          PAR_SIZE, d') ∧
      Sent d d' (slice databuf (i * ECC_BLOCK) ECC_BLOCK) := by
  simp only [Bus.programChunk, write8_eq]
  generalize slice databuf (i * ECC_BLOCK) ECC_BLOCK = chunk
  exact ⟨_, rfl, rfl, rfl, rfl, rfl, rfl, rfl⟩

/-- All chunks of a page go out in order, and `ecc_buf` takes their parities. -/
theorem programChunks (databuf ecc_buf : Nat → Byte) (n : Nat) :
    ∃ ecc_buf' d', Loop.count ((bus part emc).programChunk databuf) n (ecc_buf, d) =
        (ecc_buf', d') ∧
      Sent d d' (slice databuf 0 (n * ECC_BLOCK)) ∧
      ∀ x < n * PAR_SIZE, ecc_buf' x = parityAt emc.parity databuf 0 x := by
  induction n with
  | zero => exact ⟨ecc_buf, d, rfl, by simpa [slice] using Sent.refl d, by simp⟩
  | succ n ih =>
      obtain ⟨ecc_buf', d', so_far, sent, parities⟩ := ih
      obtain ⟨d'', chunk, sent_chunk⟩ := programChunk_eq part emc databuf ecc_buf' n (d := d')
      refine ⟨_, d'', (congrArg _ so_far).trans chunk, ?_, ?_⟩
      · rw [Nat.succ_mul, slice_add, Nat.zero_add]
        exact sent.trans sent_chunk
      · have more := parityAt_blit databuf 0 parities
        rwa [Nat.zero_add] at more

end Device

/-- Byte `j` of the OOB that goes out. -/
def storedOob (parity : List Byte → Nat → Byte) (k ecc_pos : Nat) (databuf oobbuf : Nat → Byte)
    (j : Nat) : Byte :=
  if j < ecc_pos then 0xff
  else if j < ecc_pos + PAR_SIZE * k then parityAt parity databuf 0 (j - ecc_pos)
  else oobbuf j

/-- The OOB buffer once 0xff and the parities are copied into it. -/
theorem oob_eq {parity : List Byte → Nat → Byte} {k ecc_pos : Nat} {databuf ecc_buf : Nat → Byte}
    (oobbuf : Nat → Byte)
    (parities : ∀ x < k * PAR_SIZE, ecc_buf x = parityAt parity databuf 0 x) (j : Nat) :
    blit (blit oobbuf 0 (fun _ => 0xff) ecc_pos) ecc_pos ecc_buf (k * PAR_SIZE) j =
      storedOob parity k ecc_pos databuf oobbuf j := by
  have mul := Nat.mul_comm k PAR_SIZE
  unfold storedOob
  by_cases before : j < ecc_pos
  · rw [if_pos before, blit_outside (by omega), blit_inside (Nat.zero_le _) (by omega)]
  · rw [if_neg before]
    by_cases ecc : j < ecc_pos + PAR_SIZE * k
    · rw [if_pos ecc, blit_inside (by omega) (by omega), parities _ (by omega)]
    · rw [if_neg ecc, blit_outside (by omega), blit_outside (by omega)]

namespace Device

variable (part : FlashPart) (emc : Emc) (d : Device) {g : Params}

/-- The device as `nand_program_page` has addressed it. -/
def programAddressed (g : Params) (pageaddr : Nat) : Device :=
  { d.opened CMD_SEQIN (if g.pagesize = 512 then 0 else d.area) with
    cycles := (if g.pagesize = 512 then [0] else [0, 0]) ++ rowBytes g.row pageaddr }

theorem programAddressed_page (suits : part.Suits g) (pageaddr : Nat) :
    (d.programAddressed g pageaddr).page part = pageaddr % 256 ^ g.row ∧
      (d.programAddressed g pageaddr).column part = 0 := by
  have columns := suits.columns
  rw [← suits.rows]
  by_cases size : g.pagesize = 512
  · rw [if_pos size] at columns
    have sent : (d.programAddressed g pageaddr).cycles = [0] ++ rowBytes part.rows pageaddr := by
      simp only [programAddressed, suits.rows, if_pos size]
    refine ⟨page_of_cycles [0] columns.symm sent, ?_⟩
    rw [column_of_one_cycle columns sent, programAddressed, if_pos size]
    rfl
  · rw [if_neg size] at columns
    have sent : (d.programAddressed g pageaddr).cycles =
        [0, 0] ++ rowBytes part.rows pageaddr := by
      simp only [programAddressed, suits.rows, if_neg size]
    exact ⟨page_of_cycles [0, 0] columns.symm sent, column_of_two_cycles columns sent⟩

/-- Programming writes the data and the OOB, with its ECC bytes, over the page. -/
theorem program_page_eq (suits : part.Suits g) {k : Nat} (size : g.pagesize = ECC_BLOCK * k)
    (databuf oobbuf : Nat → Byte) (pageaddr ecc_pos : Nat) (a y : Nat) :
    ((bus part emc).nand_program_page g databuf oobbuf pageaddr ecc_pos d).2.2.pages a y =
      if a = pageaddr % 256 ^ g.row ∧ y < g.pagesize + g.oobsize then
        part.store (d.pages a y) (if y < g.pagesize then databuf y
          else storedOob emc.parity k ecc_pos databuf oobbuf (y - g.pagesize))
      else d.pages a y := by
  have ecccnt : g.pagesize / ECC_BLOCK = k := by
    rw [size]
    exact Nat.mul_div_cancel_left k (by decide)
  obtain ⟨ecc_buf, chunks, looped, sent, parities⟩ :=
    programChunks part emc databuf (fun _ => 0) k (d := d.programAddressed g pageaddr)
  let out := blit (blit oobbuf 0 (fun _ => 0xff) ecc_pos) ecc_pos ecc_buf (k * PAR_SIZE)
  let full := (bus part emc).nand_data_write8 out 0 g.oobsize chunks
  have sent_all : Sent (d.programAddressed g pageaddr) full
      (slice databuf 0 (k * ECC_BLOCK) ++ slice out 0 g.oobsize) :=
    sent.trans (sent_write8 part emc out 0 g.oobsize)
  have programmed :
      ((bus part emc).nand_program_page g databuf oobbuf pageaddr ecc_pos d).2.2.pages =
        full.program part := by
    have start : (bus part emc).rowCycles g.row pageaddr
        (if g.pagesize ≠ 512 then
          (bus part emc).addr 0 ((bus part emc).addr 0 ((bus part emc).cmd CMD_SEQIN
            (if g.pagesize = 512 then (bus part emc).cmd CMD_READA ((bus part emc).enable d)
              else (bus part emc).enable d)))
        else (bus part emc).addr 0 ((bus part emc).cmd CMD_SEQIN
          (if g.pagesize = 512 then (bus part emc).cmd CMD_READA ((bus part emc).enable d)
            else (bus part emc).enable d))) = d.programAddressed g pageaddr := by
      rw [rowCycles_eq, programAddressed]
      by_cases size512 : g.pagesize = 512
      · simp only [size512, ne_eq, not_true, if_false, if_true]
        rfl
      · simp only [size512, ne_eq, not_false_eq_true, if_false, if_true]
        rfl
    simp only [Bus.nand_program_page, ecccnt, start, looped, finish_eq]
    rfl
  obtain ⟨page, column⟩ := d.programAddressed_page part suits pageaddr
  have at_page : full.page part = pageaddr % 256 ^ g.row := by
    rw [← page, Device.page, Device.page, sent_all.cycles]
  have at_column : full.column part = 0 := by
    rw [← column, Device.column, Device.column, sent_all.cycles, sent_all.area]
  have written : full.written = slice databuf 0 g.pagesize ++ slice out 0 g.oobsize := by
    rw [sent_all.written, size, Nat.mul_comm]
    rfl
  have count : full.written.length = g.pagesize + g.oobsize := by
    rw [written, List.length_append, length_slice, length_slice]
  have old : full.pages = d.pages := sent_all.pages
  rw [programmed, program, at_page, at_column, count, suits.width, old, Nat.zero_add, Nat.sub_zero]
  by_cases here : a = pageaddr % 256 ^ g.row ∧ y < g.pagesize + g.oobsize
  · rw [if_pos here, if_pos ⟨here.1, Nat.zero_le _, here.2, here.2⟩, written]
    congr 1
    by_cases data : y < g.pagesize
    · rw [if_pos data, List.getD_eq_getElem?_getD,
        List.getElem?_append_left (by rwa [length_slice]), getElem?_slice _ _ data, Nat.zero_add]
      rfl
    · rw [if_neg data, List.getD_eq_getElem?_getD,
        List.getElem?_append_right (by rw [length_slice]; omega), length_slice,
        getElem?_slice _ _ (by omega), Nat.zero_add]
      exact oob_eq oobbuf parities _
  · rw [if_neg here, if_neg fun both => here ⟨both.1, both.2.2.1⟩]

/-! ### Reading -/

/-- What the decoder is given for chunk `i` of a page. -/
def presentation (g : Params) (page : Nat → Byte) (ecc_pos i : Nat) : List Byte × List Byte :=
  (slice page (i * ECC_BLOCK) ECC_BLOCK,
    slice page (g.pagesize + (ecc_pos + i * PAR_SIZE)) PAR_SIZE)

/-- `d'` goes on reading where `d` began, `n` bytes later. -/
structure Reading (d d' : Device) (n : Nat) : Prop where
  pages : d'.pages = d.pages
  area : d'.area = d.area
  command : d'.command = d.command
  cycles : d'.cycles = d.cycles
  moved : d'.moved = d.moved + n

theorem Reading.cell {part : FlashPart} {d d' : Device} {n : Nat} (reading : Reading d d' n)
    (i : Nat) :
    d'.cell part i = d.cell part i := by
  unfold Device.cell Device.page Device.column
  rw [reading.pages, reading.area, reading.cycles]

theorem set_pars_eq (pars : Nat → Byte) (n : Nat) :
    Loop.count (fun j s => (bus part emc).set_par j (pars j) s) n d =
      { d with par := fun x => if x < n then pars x else d.par x } := by
  induction n with
  | zero => rfl
  | succ n ih =>
      have merged : (fun x => if x = n then pars n else if x < n then pars x else d.par x) =
          fun x => if x < n + 1 then pars x else d.par x := by
        funext x
        rcases Nat.lt_trichotomy x n with less | rfl | more
        · rw [if_neg less.ne, if_pos less, if_pos (by omega)]
        · rw [if_pos rfl, if_pos (by omega)]
        · rw [if_neg more.ne', if_neg (by omega), if_neg (by omega)]
      rw [Loop.count, ih, ← merged]
      rfl

/-- The decoder takes the block and the parities, and goes off. -/
theorem decode_eq (decoding : d.ecc = .decoding) :
    (bus part emc).ecc_disable ((bus part emc).prdy d) =
      { d with
        ecc := .off
        presented := d.presented ++ [(d.block, slice d.par 0 PAR_SIZE)]
        ints := (emc.decoder d.block (slice d.par 0 PAR_SIZE)).1
        errs := (emc.decoder d.block (slice d.par 0 PAR_SIZE)).2 } := by
  have off (x : Device) (x_decoding : x.ecc = .decoding) :
      (bus part emc).ecc_disable x = { x with ecc := .off } := by
    show x.ecc_disable emc = _
    rw [ecc_disable, x_decoding]
  exact off _ decoding

/-- A chunk comes in, its parities go to the decoder, and its report is followed. -/
theorem readChunk_eq (reading : d.command ≠ CMD_READ_STATUS) (databuf oobbuf : Nat → Byte)
    (ecc_pos i : Nat) :
    ∃ d', (bus part emc).readChunk oobbuf ecc_pos i (databuf, d) =
        (checkDecoding
          (emc.decoder (slice (d.cell part) d.moved ECC_BLOCK)
            (slice oobbuf (ecc_pos + i * PAR_SIZE) PAR_SIZE)).1
          (emc.decoder (slice (d.cell part) d.moved ECC_BLOCK)
            (slice oobbuf (ecc_pos + i * PAR_SIZE) PAR_SIZE)).2
          (blit databuf (i * ECC_BLOCK) (fun j => d.cell part (d.moved + j)) ECC_BLOCK)
          (i * ECC_BLOCK), d') ∧
      Reading d d' ECC_BLOCK ∧
      d'.presented = d.presented ++
        [(slice (d.cell part) d.moved ECC_BLOCK,
          slice oobbuf (ecc_pos + i * PAR_SIZE) PAR_SIZE)] := by
  have begun : (bus part emc).rs_decoding d = { d with ecc := .decoding, block := [], ints := 0 } :=
    rfl
  have read := read8_eq part emc { d with ecc := .decoding, block := [], ints := 0 } reading
    databuf (i * ECC_BLOCK) ECC_BLOCK
  have passed (data : List Byte) :
      { d with ecc := .decoding, block := [], ints := 0 }.passed data = data := rfl
  have cells : { d with ecc := .decoding, block := [], ints := 0 }.cell part = d.cell part := rfl
  rw [passed, cells] at read
  have pars : slice (fun x =>
      if x < PAR_SIZE then oobbuf (ecc_pos + i * PAR_SIZE + x) else d.par x) 0 PAR_SIZE =
        slice oobbuf (ecc_pos + i * PAR_SIZE) PAR_SIZE := by
    refine slice_eq_slice.mpr fun j lt => ?_
    rw [Nat.zero_add, if_pos lt]
  rw [← pars]
  simp only [Bus.readChunk, begun, read]
  generalize slice (d.cell part) d.moved ECC_BLOCK = chunk
  generalize ECC_BLOCK = size
  rw [set_pars_eq part emc _ (fun j => oobbuf (ecc_pos + i * PAR_SIZE + j)), decode_eq _ _ _ rfl]
  exact ⟨_, rfl, ⟨rfl, rfl, rfl, rfl, rfl⟩, rfl⟩

/-- Chunk `i` of what is read, with the symbols `errs i` xored, is byte `y` of the page. -/
theorem corrupted_blit (errs : Errors) (databuf page : Nat → Byte) (i y : Nat) :
    corrupted errs (blit databuf (i * ECC_BLOCK) (fun j => page (i * ECC_BLOCK + j)) ECC_BLOCK)
        (i * ECC_BLOCK) y =
      if y / ECC_BLOCK = i then page y ^^^ errorByte errs (y % ECC_BLOCK) else databuf y := by
  have split := Nat.div_add_mod y ECC_BLOCK
  have rest := Nat.mod_lt y (by decide : 0 < ECC_BLOCK)
  have block : (512 : Nat) = ECC_BLOCK := rfl
  unfold corrupted
  rw [block]
  by_cases here : y / ECC_BLOCK = i
  · subst here
    have first : y / ECC_BLOCK * ECC_BLOCK ≤ y := Nat.div_mul_le_self y _
    have last : y < y / ECC_BLOCK * ECC_BLOCK + ECC_BLOCK := by
      rw [Nat.mul_comm]
      omega
    have offset : y - y / ECC_BLOCK * ECC_BLOCK = y % ECC_BLOCK := by
      rw [Nat.mul_comm]
      omega
    have back : y / ECC_BLOCK * ECC_BLOCK + y % ECC_BLOCK = y := Nat.div_add_mod' y _
    rw [if_pos rfl, if_pos ⟨first, last⟩, blit_inside first last, offset, back]
  · have outside : ¬ (i * ECC_BLOCK ≤ y ∧ y < i * ECC_BLOCK + ECC_BLOCK) := by
      rintro ⟨first, last⟩
      refine here ((Nat.div_eq_iff (by decide)).mpr ⟨first, ?_⟩)
      omega
    rw [if_neg here, if_neg outside, blit_outside (by omega)]

/-- For chunk `i` of a page the decoder reports the symbols `errs`. -/
def ReportsChunk (emc : Emc) (g : Params) (page : Nat → Byte) (ecc_pos i : Nat) (errs : Errors) :
    Prop :=
  Reports (emc.decoder (presentation g page ecc_pos i).1 (presentation g page ecc_pos i).2).1
    (emc.decoder (presentation g page ecc_pos i).1 (presentation g page ecc_pos i).2).2 errs

/-- The read loop goes through the page chunk by chunk. -/
theorem readChunks {page oobbuf : Nat → Byte} (reading : d.command ≠ CMD_READ_STATUS)
    (at_start : d.moved = 0) (cells : ∀ i, d.cell part i = page i) {k ecc_pos : Nat}
    (oob : ∀ x < ecc_pos + PAR_SIZE * k, oobbuf x = page (g.pagesize + x))
    (databuf : Nat → Byte) {n : Nat} (le : n ≤ k) :
    ∃ databuf' d',
      Loop.count ((bus part emc).readChunk oobbuf ecc_pos) n (databuf, d) = (databuf', d') ∧
      Reading d d' (n * ECC_BLOCK) ∧
      d'.presented = d.presented ++ (List.range n).map (presentation g page ecc_pos) ∧
      ∀ errs : Nat → Errors, (∀ i < n, ReportsChunk emc g page ecc_pos i (errs i)) →
        ∀ y < n * ECC_BLOCK,
          databuf' y = page y ^^^ errorByte (errs (y / ECC_BLOCK)) (y % ECC_BLOCK) := by
  induction n with
  | zero =>
      refine ⟨databuf, d, rfl, ⟨rfl, rfl, rfl, rfl, ?_⟩, ?_, ?_⟩
      · rw [Nat.zero_mul, Nat.add_zero]
      · exact (List.append_nil _).symm
      · intro errs _ y lt
        rw [Nat.zero_mul] at lt
        exact absurd lt (Nat.not_lt_zero y)
  | succ n ih =>
      obtain ⟨databuf', d', looped, so_far, presented, correct⟩ := ih (Nat.le_of_succ_le le)
      have still : d'.command ≠ CMD_READ_STATUS := by
        rw [so_far.command]
        exact reading
      obtain ⟨d'', chunk, further, more⟩ :=
        readChunk_eq part emc d' still databuf' oobbuf ecc_pos n
      have cells' : d'.cell part = page := funext fun i => (so_far.cell i).trans (cells i)
      have moved : d'.moved = n * ECC_BLOCK := by
        rw [so_far.moved, at_start, Nat.zero_add]
      have given_data : slice (d'.cell part) d'.moved ECC_BLOCK =
          (presentation g page ecc_pos n).1 := by
        rw [cells', moved, presentation]
      have given_pars : slice oobbuf (ecc_pos + n * PAR_SIZE) PAR_SIZE =
          (presentation g page ecc_pos n).2 := by
        rw [presentation, slice_eq_slice]
        intro x lt
        have inside : (n + 1) * PAR_SIZE ≤ PAR_SIZE * k := by
          rw [Nat.mul_comm]
          exact Nat.mul_le_mul_left _ le
        have there : ecc_pos + n * PAR_SIZE + x < ecc_pos + PAR_SIZE * k := by
          rw [Nat.succ_mul] at inside
          omega
        rw [oob _ there, Nat.add_assoc g.pagesize]
      rw [given_data, given_pars] at chunk more
      refine ⟨_, d'', by rw [Loop.count, looped, chunk], ?_, ?_, ?_⟩
      · constructor
        · exact further.pages.trans so_far.pages
        · exact further.area.trans so_far.area
        · exact further.command.trans so_far.command
        · exact further.cycles.trans so_far.cycles
        · rw [further.moved, so_far.moved, Nat.succ_mul, Nat.add_assoc]
      · rw [more, presented, List.range_succ, List.map_append, List.append_assoc,
          List.map_singleton, Prod.mk.eta]
      · intro errs reports y lt
        rw [(reports n n.lt_succ_self).checkDecoding_eq, cells', moved, corrupted_blit]
        by_cases last : y / ECC_BLOCK = n
        · rw [if_pos last, last]
        · rw [if_neg last]
          refine correct errs (fun i lt => reports i (Nat.lt_succ_of_lt lt)) y ?_
          have below : y / ECC_BLOCK < n + 1 := Nat.div_lt_of_lt_mul (by rwa [Nat.mul_comm])
          exact (Nat.div_lt_iff_lt_mul (by decide)).mp (by omega)

/-- `nand_read_page` presents the page's chunks with the parities behind them, and leaves
in `databuf` the page with the symbols reported for each chunk xored. -/
theorem read_page_eq (suits : part.Suits g) (small : g.pagesize < 65536) {k ecc_pos : Nat}
    (size : g.pagesize = ECC_BLOCK * k) (fits : ecc_pos + PAR_SIZE * k ≤ g.oobsize)
    (databuf oobbuf : Nat → Byte) (pageaddr : Nat) :
    ((bus part emc).nand_read_page g databuf oobbuf pageaddr ecc_pos d).2.2.presented =
        d.presented ++
          (List.range k).map (presentation g (d.pages (pageaddr % 256 ^ g.row)) ecc_pos) ∧
      ∀ errs : Nat → Errors,
        (∀ i < k, ReportsChunk emc g (d.pages (pageaddr % 256 ^ g.row)) ecc_pos i (errs i)) →
        ∀ y < g.pagesize,
          ((bus part emc).nand_read_page g databuf oobbuf pageaddr ecc_pos d).1 y =
            d.pages (pageaddr % 256 ^ g.row) y ^^^
              errorByte (errs (y / ECC_BLOCK)) (y % ECC_BLOCK) := by
  have ecccnt : g.pagesize / ECC_BLOCK = k := by
    rw [size]
    exact Nat.mul_div_cancel_left k (by decide)
  obtain ⟨d', read, pages, presented⟩ :=
    read_oob_eq part emc d suits small oobbuf g.oobsize pageaddr
  have oob (x : Nat) (lt : x < ecc_pos + PAR_SIZE * k) :
      blit oobbuf 0 (fun i => d.pages (pageaddr % 256 ^ g.row) (g.pagesize + i)) g.oobsize x =
        d.pages (pageaddr % 256 ^ g.row) (g.pagesize + x) := by
    rw [blit_inside (Nat.zero_le _) (by omega), Nat.sub_zero]
  -- the read command, which depends on the page size
  obtain ⟨r, reads, read_page⟩ : ∃ r, Reads part d' r (pageaddr % 256 ^ g.row) 0 ∧
      (bus part emc).nand_read_page g databuf oobbuf pageaddr ecc_pos d =
        (let out := blit oobbuf 0 (fun i => d.pages (pageaddr % 256 ^ g.row) (g.pagesize + i))
          g.oobsize
        let read := Loop.count ((bus part emc).readChunk out ecc_pos) k (databuf, r)
        (read.1, out, (bus part emc).disable read.2)) := by
    have enabled : (bus part emc).enable d = d := rfl
    by_cases size512 : g.pagesize = 512
    · refine ⟨_, reads_small part emc d' suits size512 (cmd_READA part emc d') (by decide)
        pageaddr, ?_⟩
      rw [Bus.nand_read_page, ecccnt, enabled, read]
      simp only [size512, ne_eq, not_true, if_false]
    · refine ⟨_, reads_large part emc d' suits size512 (by decide : 0 < 65536) pageaddr, ?_⟩
      rw [Bus.nand_read_page, ecccnt, enabled, read]
      simp only [size512, ne_eq, not_false_eq_true, if_true]
      rfl
  have cells (i : Nat) : r.cell part i = d.pages (pageaddr % 256 ^ g.row) i := by
    rw [cell, reads.at_page, reads.at_column, reads.pages, pages, Nat.zero_add]
  obtain ⟨databuf', d'', looped, -, more, correct⟩ :=
    readChunks part emc r reads.reading reads.at_start cells oob databuf k.le_refl
  simp only [read_page, looped]
  constructor
  · show d''.presented = _
    rw [more, reads.presented, presented]
  · intro errs reports y lt
    exact correct errs reports y (by rwa [size, Nat.mul_comm] at lt)

end Device

/-! ### A page read back -/

/-- The decoder's chunk `i` and its parities, where the page holds what was programmed. -/
theorem presentation_eq {parity : List Byte → Nat → Byte} {g : Params} {k ecc_pos i : Nat}
    {databuf oobbuf page : Nat → Byte} (size : g.pagesize = ECC_BLOCK * k)
    (fits : ecc_pos + PAR_SIZE * k ≤ g.oobsize)
    (data : ∀ y < g.pagesize, page y = databuf y)
    (oob : ∀ x < g.oobsize, page (g.pagesize + x) = storedOob parity k ecc_pos databuf oobbuf x)
    (lt : i < k) :
    Device.presentation g page ecc_pos i =
      (slice databuf (i * ECC_BLOCK) ECC_BLOCK,
        slice (parity (slice databuf (i * ECC_BLOCK) ECC_BLOCK)) 0 PAR_SIZE) := by
  have chunks : (i + 1) * ECC_BLOCK ≤ ECC_BLOCK * k := by
    rw [Nat.mul_comm]
    exact Nat.mul_le_mul_left _ lt
  have parities : (i + 1) * PAR_SIZE ≤ PAR_SIZE * k := by
    rw [Nat.mul_comm]
    exact Nat.mul_le_mul_left _ lt
  rw [Nat.succ_mul] at chunks parities
  rw [Device.presentation, Prod.mk.injEq, slice_eq_slice, slice_eq_slice]
  constructor
  · intro x inside
    exact data _ (by omega)
  · intro x inside
    have chunk : (i * PAR_SIZE + x) / PAR_SIZE = i := by
      rw [Nat.add_comm, Nat.add_mul_div_right _ _ (by decide), Nat.div_eq_of_lt inside,
        Nat.zero_add]
    have byte : (i * PAR_SIZE + x) % PAR_SIZE = x := by
      rw [Nat.add_comm, Nat.add_mul_mod_self_right, Nat.mod_eq_of_lt inside]
    have offset : ecc_pos + i * PAR_SIZE + x - ecc_pos = i * PAR_SIZE + x := by omega
    rw [Nat.add_assoc g.pagesize, oob _ (by omega), storedOob, if_neg (by omega),
      if_pos (by omega), offset, parityAt, chunk, byte, Nat.zero_add, Nat.zero_add]

/-- The page as `nand_program_page` leaves it holds the data, 0xff up to `ecc_pos`, the parities
of the chunks in order and the caller's OOB after them. Reading it presents each chunk to the
decoder with its own parities. Whatever symbols the decoder then finds in it, as long as they
are the ones that changed, `nand_read_page` restores the data. -/
theorem page_read_back (part : FlashPart) (emc : Emc) (d : Device) {g : Params} {k ecc_pos : Nat}
    (suits : part.Suits g) (size : g.pagesize = ECC_BLOCK * k) (room : PAR_SIZE * k ≤ 128)
    (fits : ecc_pos + PAR_SIZE * k ≤ g.oobsize) (databuf oobbuf : Nat → Byte) (pageaddr : Nat)
    (stores : ∀ y b, part.store (d.pages (pageaddr % 256 ^ g.row) y) b = b) :
    let bus := Device.bus part emc
    let after := (bus.nand_program_page g databuf oobbuf pageaddr ecc_pos d).2.2
    let page := after.pages (pageaddr % 256 ^ g.row)
    (∀ y < g.pagesize, page y = databuf y) ∧
    (∀ x < g.oobsize, page (g.pagesize + x) =
      storedOob emc.parity k ecc_pos databuf oobbuf x) ∧
    (∀ databuf' oobbuf',
      (bus.nand_read_page g databuf' oobbuf' pageaddr ecc_pos after).2.2.presented =
        after.presented ++ (List.range k).map fun i =>
          (slice databuf (i * ECC_BLOCK) ECC_BLOCK,
            slice (emc.parity (slice databuf (i * ECC_BLOCK) ECC_BLOCK)) 0 PAR_SIZE)) ∧
    ∀ (t : Device) (errs : Nat → Errors),
      (∀ y < g.pagesize, t.pages (pageaddr % 256 ^ g.row) y =
        page y ^^^ errorByte (errs (y / ECC_BLOCK)) (y % ECC_BLOCK)) →
      (∀ i < k, Device.ReportsChunk emc g (t.pages (pageaddr % 256 ^ g.row)) ecc_pos i (errs i)) →
      ∀ databuf' oobbuf', ∀ y < g.pagesize,
        (bus.nand_read_page g databuf' oobbuf' pageaddr ecc_pos t).1 y = databuf y := by
  have small : g.pagesize < 65536 := by
    have chunks : k ≤ 14 := by
      have nine : PAR_SIZE = 9 := rfl
      rw [nine] at room
      omega
    have block : ECC_BLOCK = 512 := rfl
    rw [size, block]
    omega
  intro bus after page
  have cell (y : Nat) (inside : y < g.pagesize + g.oobsize) : page y =
      if y < g.pagesize then databuf y
      else storedOob emc.parity k ecc_pos databuf oobbuf (y - g.pagesize) := by
    show after.pages (pageaddr % 256 ^ g.row) y = _
    rw [Device.program_page_eq part emc d suits size, if_pos ⟨rfl, inside⟩, stores]
  have data (y : Nat) (lt : y < g.pagesize) : page y = databuf y := by
    rw [cell y (by omega), if_pos lt]
  have oob (x : Nat) (lt : x < g.oobsize) :
      page (g.pagesize + x) = storedOob emc.parity k ecc_pos databuf oobbuf x := by
    rw [cell _ (by omega), if_neg (by omega), Nat.add_sub_cancel_left]
  refine ⟨data, oob, ?_, ?_⟩
  · intro databuf' oobbuf'
    have presented : (List.range k).map (Device.presentation g page ecc_pos) =
        (List.range k).map fun i => (slice databuf (i * ECC_BLOCK) ECC_BLOCK,
          slice (emc.parity (slice databuf (i * ECC_BLOCK) ECC_BLOCK)) 0 PAR_SIZE) :=
      List.map_congr_left fun i member =>
        presentation_eq size fits data oob (List.mem_range.mp member)
    rw [← presented]
    exact (Device.read_page_eq part emc after suits small size fits databuf' oobbuf' pageaddr).1
  · intro t errs changed reports databuf' oobbuf' y lt
    have read := (Device.read_page_eq part emc t suits small size fits databuf' oobbuf' pageaddr).2
      errs reports y lt
    rw [read, changed y lt, BitVec.xor_assoc, BitVec.xor_self, BitVec.xor_zero, data y lt]

/-- A flash whose programming clears bits, with the geometry of `nand_init_4740`. -/
def clearingPart : FlashPart where
  columns := 2
  rows := 3
  width := 2048 + 64
  store old b := old &&& b
  store_zero _ := BitVec.and_zero
  unsent _ := 0
  status := 0xc0

/-- The first bytes of a chunk are its parities, and the first bit of each is found flipped. -/
def flippingEmc : Emc where
  parity chunk j := chunk.getD j 0
  decoder _ _ := (0x20000001, fun _ => 0x00010001)

/-- Four flipped bits in a page of `nand_init_4740` are taken back. -/
theorem page_read_back_sample :
    let databuf : Nat → Byte := BitVec.ofNat 8
    let after := ((Device.bus clearingPart flippingEmc).nand_program_page nand_init_4740 databuf
      (fun _ => 0x5a) 5 28 blankDevice).2.2
    let flipped : Device :=
      { after with pages := fun a y => after.pages a y ^^^ errorByte [(1, 1)] (y % ECC_BLOCK) }
    ∀ y < nand_init_4740.pagesize,
      ((Device.bus clearingPart flippingEmc).nand_read_page nand_init_4740 (fun _ => 0)
        (fun _ => 0) 5 28 flipped).1 y = databuf y := by
  have stores (b : Byte) : (0xff : Byte) &&& b = b := BitVec.allOnes_and
  have reported : Reports 0x20000001 (fun _ => 0x00010001) [(1, 1)] := by
    constructor
    · decide
    · decide
    · decide
    · decide
    · decide
    · intro n e there
      cases n with
      | zero =>
          cases there
          decide
      | succ n => cases there
  intro databuf after flipped
  have size : nand_init_4740.pagesize = ECC_BLOCK * 4 := rfl
  have room : PAR_SIZE * 4 ≤ 128 := by decide
  have fits : 28 + PAR_SIZE * 4 ≤ nand_init_4740.oobsize := by decide
  have restored := (page_read_back clearingPart flippingEmc blankDevice ⟨rfl, rfl, rfl⟩ size room
    fits databuf (fun _ => 0x5a) 5 fun _ b => stores b).2.2.2
  have changed (y : Nat) : flipped.pages (5 % 256 ^ nand_init_4740.row) y =
      after.pages (5 % 256 ^ nand_init_4740.row) y ^^^ errorByte [(1, 1)] (y % ECC_BLOCK) := rfl
  exact restored flipped (fun _ => [(1, 1)]) (fun y _ => changed y) (fun _ _ => reported) _ _

end CFunc.NandProg
