import ProcessorFuzz.Execution.SignatureFile

/-!
# The signature file of the ISA simulation

`htif_t::stop` dumps the signature region and the data sections from the byte memory of Spike. One
buffer, allocated for the region, is read into again for every section, and each group of sixteen
bytes is printed from its last byte to its first.

The memory of the RTL simulation holds little-endian words. Printing a word is printing its bytes
backwards, so both simulators write the same file whenever they have the same memory.
-/

namespace ProcessorFuzz.Execution.HtifSignature

open Library SignatureFile

/-- The bytes of the target memory. -/
abbrev ByteMemory := ℕ → UInt8

inductive Fault
  | assertion
  | outOfBounds
  deriving DecidableEq, Repr

def bytesAt (mem : ByteMemory) (addr len : ℕ) : List UInt8 :=
  (List.range len).map fun k ↦ mem (addr + k)

/-- `sim_t::read_chunk`: an aligned load, stored in little-endian order. -/
def readChunk (mem : ByteMemory) (taddr len : ℕ) : Except Fault (List UInt8) :=
  if len = 8 then .ok (bytesAt mem taddr 8) else .error .assertion

/-- `memcpy(bytes + pos, src, …)`; writing past the end of the buffer is a fault. -/
def memcpy (bytes : List UInt8) (pos : ℕ) (src : List UInt8) : Except Fault (List UInt8) :=
  if pos + src.length ≤ bytes.length then
    .ok (bytes.take pos ++ src ++ bytes.drop (pos + src.length))
  else .error .outOfBounds

/-- The progress of `memif_t::read`: the buffer, the position in it and what remains to be read. -/
structure Progress where
  bytes : List UInt8
  pos : ℕ
  addr : ℕ
  len : ℕ

/-- The bytes before the first aligned address. -/
def readHead (mem : ByteMemory) (p : Progress) : Except Fault Progress :=
  if p.len ≠ 0 ∧ p.addr % 8 ≠ 0 then do
    let thisLen := min p.len (8 - p.addr % 8)
    let chunk ← readChunk mem (p.addr / 8 * 8) 8
    let bytes ← memcpy p.bytes p.pos ((chunk.drop (p.addr % 8)).take thisLen)
    .ok { bytes, pos := p.pos + thisLen, addr := p.addr + thisLen, len := p.len - thisLen }
  else .ok p

/-- The bytes after the last aligned address. -/
def readTail (mem : ByteMemory) (p : Progress) : Except Fault Progress :=
  if p.len % 8 ≠ 0 then do
    let thisLen := p.len % 8
    let start := p.len - thisLen
    let chunk ← readChunk mem (p.addr + start) 8
    let bytes ← memcpy p.bytes (p.pos + start) (chunk.take thisLen)
    .ok { p with bytes, len := p.len - thisLen }
  else .ok p

/-- The aligned part in between. -/
def readAligned (mem : ByteMemory) (p : Progress) : Except Fault (List UInt8) :=
  (rangeStep 0 p.len 8).foldlM (fun bytes pos ↦ do
    let chunk ← readChunk mem (p.addr + pos) (min 8 (p.len - pos))
    memcpy bytes (p.pos + pos) chunk) p.bytes

/-- `memif_t::read`. -/
def read (mem : ByteMemory) (addr len : ℕ) (bytes : List UInt8) : Except Fault (List UInt8) := do
  let p ← readHead mem { bytes, pos := 0, addr, len }
  let p ← readTail mem p
  readAligned mem p

/-- The members of `htif_t` that describe the signature. -/
structure Htif where
  sigAddr : UInt64 := 0
  sigLen : UInt64 := 0
  dataAddrs : List (UInt64 × UInt64) := []

/-- The symbols that `htif_t::load_program` looks up. -/
def loadProgram (htif : Htif) (symbols : Dict Text UInt64) : Htif :=
  let region := (symbols.get? "begin_signature".toList, symbols.get? "end_signature".toList)
  let htif := match region with
    | (some sigStart, some sigEnd) => { htif with sigAddr := sigStart, sigLen := sigEnd - sigStart }
    | _ => htif
  { htif with
    dataAddrs := (List.range 6).filterMap fun i ↦
      match symbols.get? (dataStartSymbol i), symbols.get? (dataEndSymbol i) with
      | some dataStart, some dataEnd => some (dataStart, dataEnd)
      | _, _ => none }

/-- `buf[i]`. -/
def byteAt (buf : List UInt8) (i : ℕ) : Except Fault UInt8 :=
  match buf[i]? with
  | none => .error .outOfBounds
  | some b => .ok b

/-- Sixteen bytes from `i`, the last one first, and a line feed. -/
def printGroup (buf : List UInt8) (sigs : Text) (i : ℕ) : Except Fault Text := do
  let sigs ← (List.range 16).reverse.foldlM (fun sigs j ↦ do
    let b ← byteAt buf (i + j)
    .ok (sigs ++ Text.hexPad 2 b.toNat)) sigs
  .ok (sigs ++ ['\n'])

def checkLen (len : ℕ) : Except Fault Unit :=
  if len % 16 = 0 then .ok () else .error .assertion

/-- One round of the loop over `data_addrs`: the section is read into the buffer of the region. -/
def dumpSection (mem : ByteMemory) (state : Text × List UInt8) (addrs : UInt64 × UInt64) :
    Except Fault (Text × List UInt8) := do
  let dataLen := (addrs.2 - addrs.1).toNat
  let buf ← read mem addrs.1.toNat dataLen state.2
  checkLen dataLen
  let sigs ← (rangeStep 0 dataLen 16).foldlM (printGroup buf) state.1
  .ok (sigs, buf)

/-- `htif_t::stop`: the contents of the signature file, when it is written. -/
def stop (htif : Htif) (sigFile : Text) (mem : ByteMemory) : Except Fault (Option Text) :=
  if sigFile ≠ [] ∧ htif.sigLen ≠ 0 then do
    let sigLen := htif.sigLen.toNat
    let buf ← read mem htif.sigAddr.toNat sigLen (List.replicate sigLen 0)
    checkLen sigLen
    let sigs ← (rangeStep 0 sigLen 16).foldlM (printGroup buf) []
    let (sigs, _) ← htif.dataAddrs.foldlM (dumpSection mem) (sigs, buf)
    .ok (some sigs)
  else .ok none

@[simp]
theorem length_bytesAt (mem : ByteMemory) (addr len : ℕ) : (bytesAt mem addr len).length = len := by
  simp [bytesAt]

theorem bytesAt_add (mem : ByteMemory) (addr m n : ℕ) :
    bytesAt mem addr (m + n) = bytesAt mem addr m ++ bytesAt mem (addr + m) n := by
  unfold bytesAt
  rw [List.range_add, List.map_append, List.map_map]
  congr 1
  apply List.map_congr_left
  intro k _
  exact congrArg mem (Nat.add_assoc addr m k).symm

theorem bytesAt_drop_take {mem : ByteMemory} {addr off len : ℕ} (h : off + len ≤ 8) :
    ((bytesAt mem addr 8).drop off).take len = bytesAt mem (addr + off) len := by
  obtain ⟨rest, hrest⟩ := Nat.exists_eq_add_of_le h
  rw [hrest, bytesAt_add, bytesAt_add, List.append_assoc,
    List.drop_left' (length_bytesAt mem addr off), List.take_left' (length_bytesAt mem _ len)]

theorem memcpy_append {left middle src : List UInt8} {pos : ℕ} (hpos : left.length = pos)
    (hlength : middle.length = src.length) (right : List UInt8) :
    memcpy (left ++ middle ++ right) pos src = .ok (left ++ src ++ right) := by
  have hle : pos + src.length ≤ (left ++ middle ++ right).length := by
    simp only [List.length_append]
    omega
  have htake : (left ++ middle ++ right).take pos = left := by
    rw [List.append_assoc, List.take_left' hpos]
  have hdrop : (left ++ middle ++ right).drop (pos + src.length) = right :=
    List.drop_left' (by rw [List.length_append, hpos, hlength])
  rw [memcpy, if_pos hle, htake, hdrop]

/-- The aligned loop fills its part of the buffer chunk by chunk. -/
theorem readAligned_eq_ok {mem : ByteMemory} {addr n : ℕ} {left middle : List UInt8}
    (hlength : middle.length = 8 * n) (right : List UInt8) :
    readAligned mem { bytes := left ++ middle ++ right, pos := left.length, addr, len := 8 * n } =
      .ok (left ++ bytesAt mem addr (8 * n) ++ right) := by
  have hrun : ∀ m ≤ n, ((List.range m).map fun k ↦ 0 + 8 * k).foldlM (fun bytes pos ↦ do
      let chunk ← readChunk mem (addr + pos) (min 8 (8 * n - pos))
      memcpy bytes (left.length + pos) chunk) (left ++ middle ++ right) =
      (Except.ok (left ++ bytesAt mem addr (8 * m) ++ (middle.drop (8 * m) ++ right)) :
        Except Fault (List UInt8)) := by
    intro m hm
    induction m with
    | zero => simp [bytesAt, pure, Except.pure]
    | succ m ih =>
      have hmin : min 8 (8 * n - (0 + 8 * m)) = 8 := by omega
      have hsplit : middle.drop (8 * m) =
          (middle.drop (8 * m)).take 8 ++ middle.drop (8 * (m + 1)) := by
        rw [show 8 * (m + 1) = 8 * m + 8 by omega, ← List.drop_drop, List.take_append_drop]
      rw [List.range_succ, List.map_append, List.foldlM_append, ih (by omega), ok_bind,
        List.map_singleton, List.foldlM_cons, hmin, readChunk, if_pos rfl, ok_bind, Nat.zero_add,
        hsplit, List.append_assoc ((middle.drop (8 * m)).take 8), ← List.append_assoc,
        memcpy_append (by simp) (by simp; omega), show 8 * (m + 1) = 8 * m + 8 by omega,
        bytesAt_add, ← List.append_assoc left]
      rfl
  rw [readAligned, rangeStep_of_dvd (by decide) ⟨n, rfl⟩]
  dsimp only
  rw [show (8 * n - 0) / 8 = n by omega, hrun n le_rfl,
    List.drop_eq_nil_of_le (Nat.le_of_eq hlength), List.nil_append]

theorem readHead_eq_ok (mem : ByteMemory) (addr : ℕ) {len : ℕ} {bytes : List UInt8}
    (h : len ≤ bytes.length) :
    ∃ n ≤ len, readHead mem { bytes, pos := 0, addr, len } =
        .ok { bytes := bytesAt mem addr n ++ bytes.drop n, pos := n, addr := addr + n,
              len := len - n } := by
  unfold readHead
  dsimp only
  split
  · next hhead =>
    set n := min len (8 - addr % 8) with hn
    have hsrc : ((bytesAt mem (addr / 8 * 8) 8).drop (addr % 8)).take n = bytesAt mem addr n := by
      rw [bytesAt_drop_take (by omega), show addr / 8 * 8 + addr % 8 = addr by omega]
    have hlength : (bytes.take n).length = (bytesAt mem addr n).length := by
      rw [List.length_take, length_bytesAt]
      omega
    have hcopy : memcpy ([] ++ bytes.take n ++ bytes.drop n) 0 (bytesAt mem addr n) =
        .ok ([] ++ bytesAt mem addr n ++ bytes.drop n) :=
      memcpy_append rfl hlength (bytes.drop n)
    rw [List.nil_append, List.take_append_drop, List.nil_append] at hcopy
    refine ⟨n, by omega, ?_⟩
    rw [readChunk, if_pos rfl, ok_bind, hsrc, hcopy, ok_bind, Nat.zero_add]
  · exact ⟨0, Nat.zero_le len, by simp [bytesAt]⟩

theorem readTail_eq_ok (mem : ByteMemory) (addr : ℕ) (left : List UInt8) {n m : ℕ}
    {middle tail : List UInt8}
    (hmiddle : middle.length = 8 * n) (htail : tail.length = m) (hm : m < 8)
    (right : List UInt8) :
    readTail mem { bytes := left ++ middle ++ tail ++ right, pos := left.length, addr,
                   len := 8 * n + m } =
      .ok { bytes := left ++ middle ++ bytesAt mem (addr + 8 * n) m ++ right,
            pos := left.length, addr, len := 8 * n } := by
  have hmod : (8 * n + m) % 8 = m := by omega
  have hstart : 8 * n + m - m = 8 * n := by omega
  unfold readTail
  dsimp only
  rw [hmod]
  split
  · have hsrc : (bytesAt mem (addr + 8 * n) 8).take m = bytesAt mem (addr + 8 * n) m := by
      obtain ⟨rest, hrest⟩ := Nat.exists_eq_add_of_le hm.le
      rw [hrest, bytesAt_add, List.take_left' (length_bytesAt mem _ m)]
    rw [hstart, readChunk, if_pos rfl, ok_bind, hsrc,
      memcpy_append (by rw [List.length_append, hmiddle]) (by rw [htail, length_bytesAt]), ok_bind]
  · next hzero =>
    have hm0 : m = 0 := not_ne_iff.mp hzero
    subst hm0
    rw [List.length_eq_zero_iff.mp htail]
    rfl

theorem readTail_readAligned (mem : ByteMemory) (addr : ℕ) (left : List UInt8) {len : ℕ}
    {right : List UInt8}
    (h : len ≤ right.length) :
    (readTail mem { bytes := left ++ right, pos := left.length, addr, len } >>=
        readAligned mem) =
      .ok (left ++ bytesAt mem addr len ++ right.drop len) := by
  have hlen : 8 * (len / 8) + len % 8 = len := Nat.div_add_mod len 8
  have hmiddle : (right.take (8 * (len / 8))).length = 8 * (len / 8) := by
    rw [List.length_take]
    omega
  have htail : ((right.drop (8 * (len / 8))).take (len % 8)).length = len % 8 := by
    rw [List.length_take, List.length_drop]
    omega
  have hsplit : left ++ right = left ++ right.take (8 * (len / 8)) ++
      (right.drop (8 * (len / 8))).take (len % 8) ++ right.drop len := by
    have hdrop : right.drop len = (right.drop (8 * (len / 8))).drop (len % 8) := by
      rw [List.drop_drop, hlen]
    rw [hdrop, List.append_assoc, List.take_append_drop, List.append_assoc, List.take_append_drop]
  have hrun := readTail_eq_ok mem addr left hmiddle htail
    (Nat.mod_lt len (by decide)) (right.drop len)
  rw [hlen] at hrun
  rw [hsplit, hrun, ok_bind, List.append_assoc _ (bytesAt mem _ _),
    readAligned_eq_ok hmiddle, ← List.append_assoc, List.append_assoc left, ← bytesAt_add, hlen]

/-- `memif_t::read` fills the start of the buffer, for every address and length. -/
theorem read_eq_ok (mem : ByteMemory) (addr : ℕ) {len : ℕ} {bytes : List UInt8}
    (h : len ≤ bytes.length) :
    read mem addr len bytes = .ok (bytesAt mem addr len ++ bytes.drop len) := by
  obtain ⟨n, hn, hhead⟩ := readHead_eq_ok mem addr h
  have hlength : len - n ≤ (bytes.drop n).length := by
    rw [List.length_drop]
    omega
  have htail := readTail_readAligned mem (addr + n) (bytesAt mem addr n) hlength
  rw [length_bytesAt, List.drop_drop, Nat.add_sub_cancel' hn, ← bytesAt_add,
    Nat.add_sub_cancel' hn] at htail
  rw [read, hhead, ok_bind]
  exact htail

/-- The little-endian word at an address. -/
def leWord (mem : ByteMemory) (addr : ℕ) : UInt64 :=
  UInt64.ofNat (Nat.ofDigits 256 ((bytesAt mem addr 8).map UInt8.toNat))

theorem hexPad_leWord (mem : ByteMemory) (addr : ℕ) :
    Text.hexPad 16 (leWord mem addr).toNat =
      (bytesAt mem addr 8).reverse.flatMap fun b ↦ Text.hexPad 2 b.toNat := by
  have hbytes : ∀ b ∈ (bytesAt mem addr 8).map UInt8.toNat, b < 256 := by
    intro b hb
    obtain ⟨byte, -, rfl⟩ := List.mem_map.mp hb
    exact byte.toNat_lt
  have hlt : Nat.ofDigits 256 ((bytesAt mem addr 8).map UInt8.toNat) < 2 ^ 64 := by
    have hpow := Nat.ofDigits_lt_base_pow_length (by decide) hbytes
    rwa [List.length_map, length_bytesAt] at hpow
  have hword : (leWord mem addr).toNat =
      Nat.ofDigits 256 ((bytesAt mem addr 8).map UInt8.toNat) :=
    UInt64.toNat_ofNat_of_lt hlt
  have hprint := Text.hexPad_ofDigits (by simp [bytesAt]) hbytes
  rw [List.length_map, length_bytesAt] at hprint
  rw [hword, hprint, ← List.map_reverse, List.flatMap_map]

/-- A group of sixteen bytes is printed as the line of its two words. -/
theorem printGroup_eq_ok {mem : ByteMemory} {addr len i : ℕ} (hi : i + 16 ≤ len)
    (rest : List UInt8) (sigs : Text) :
    printGroup (bytesAt mem addr len ++ rest) sigs i =
      .ok (sigs ++ (wordsLine (leWord mem) (addr + i) ++ ['\n'])) := by
  have hbyte : ∀ j ∈ (List.range 16).reverse, ∀ sigs : Text,
      (do
        let b ← byteAt (bytesAt mem addr len ++ rest) (i + j)
        .ok (sigs ++ Text.hexPad 2 b.toNat)) =
        (Except.ok (sigs ++ Text.hexPad 2 (mem (addr + i + j)).toNat) : Except Fault Text) := by
    intro j hj sigs
    have hlt : j < 16 := List.mem_range.mp (List.mem_reverse.mp hj)
    have hget : (bytesAt mem addr len ++ rest)[i + j]? = some (mem (addr + i + j)) := by
      rw [List.getElem?_append_left (by rw [length_bytesAt]; omega)]
      simp [bytesAt, show i + j < len by omega, Nat.add_assoc]
    rw [byteAt, hget, ok_bind]
  have hline : ((List.range 16).reverse.map fun j ↦
      Text.hexPad 2 (mem (addr + i + j)).toNat).flatten = wordsLine (leWord mem) (addr + i) := by
    calc
      ((List.range 16).reverse.map fun j ↦ Text.hexPad 2 (mem (addr + i + j)).toNat).flatten =
          (bytesAt mem (addr + i) (8 + 8)).reverse.flatMap fun b ↦ Text.hexPad 2 b.toNat := by
        rw [bytesAt, ← List.map_reverse, List.flatMap_map, List.flatMap_def]
      _ = wordsLine (leWord mem) (addr + i) := by
        rw [bytesAt_add, List.reverse_append, List.flatMap_append, wordsLine, hexPad_leWord,
          hexPad_leWord]
  rw [printGroup, foldlM_eq_ok hbyte, ok_bind, List.foldl_append_eq_append, hline,
    List.append_assoc]

/-- A range of bytes is printed as the lines of its words. -/
theorem foldlM_printGroup (mem : ByteMemory) (addr : ℕ) {len : ℕ} (h : 16 ∣ len) (rest : List UInt8)
    (sigs : Text) :
    (rangeStep 0 len 16).foldlM (printGroup (bytesAt mem addr len ++ rest)) sigs =
      .ok (sigs ++ writeLines (regionLines (leWord mem) addr (addr + len))) := by
  have hstep : ∀ i ∈ rangeStep 0 len 16, ∀ sigs : Text,
      printGroup (bytesAt mem addr len ++ rest) sigs i =
        .ok (sigs ++ (wordsLine (leWord mem) (addr + i) ++ ['\n'])) := by
    intro i hi sigs
    rw [rangeStep_of_dvd (by decide) h, List.mem_map] at hi
    obtain ⟨k, hk, rfl⟩ := hi
    have hlt := List.mem_range.mp hk
    exact printGroup_eq_ok (by omega) rest sigs
  have hlines : regionLines (leWord mem) addr (addr + len) =
      (rangeStep 0 len 16).map fun i ↦ wordsLine (leWord mem) (addr + i) := by
    rw [regionLines, rangeStep_of_dvd (by decide) (by rwa [Nat.add_sub_cancel_left]),
      rangeStep_of_dvd (by decide) h, List.map_map, List.map_map, Nat.add_sub_cancel_left]
    simp [Function.comp_def]
  rw [foldlM_eq_ok hstep, List.foldl_append_eq_append, writeLines, hlines, List.flatMap_map,
    List.flatMap_def]

/-- The sections are dumped one after another through the shared buffer. -/
theorem foldlM_dumpSection (mem : ByteMemory) {size : ℕ} {dataAddrs : List (UInt64 × UInt64)}
    (h : ∀ addrs ∈ dataAddrs, addrs.1 ≤ addrs.2 ∧ 16 ∣ addrs.2.toNat - addrs.1.toNat ∧
      addrs.2.toNat - addrs.1.toNat ≤ size) (sigs : Text) {buf : List UInt8}
    (hbuf : buf.length = size) :
    ∃ buf', dataAddrs.foldlM (dumpSection mem) (sigs, buf) =
      .ok (sigs ++ writeLines (sectionLines (leWord mem)
        (dataAddrs.map fun addrs ↦ (addrs.1.toNat, addrs.2.toNat))), buf') := by
  induction dataAddrs generalizing sigs buf with
  | nil => exact ⟨buf, by simp [writeLines, sectionLines, pure, Except.pure]⟩
  | cons addrs dataAddrs ih =>
    obtain ⟨hle, hsize, hfits⟩ := h addrs List.mem_cons_self
    have hlen : (addrs.2 - addrs.1).toNat = addrs.2.toNat - addrs.1.toNat :=
      UInt64.toNat_sub_of_le _ _ hle
    have hend : addrs.1.toNat + (addrs.2.toNat - addrs.1.toNat) = addrs.2.toNat :=
      Nat.add_sub_cancel' hle
    have hread := read_eq_ok mem addrs.1.toNat (hfits.trans hbuf.ge)
    have hcheck : checkLen (addrs.2.toNat - addrs.1.toNat) = .ok () := by
      rw [checkLen, if_pos (Nat.mod_eq_zero_of_dvd hsize)]
    have hprint := foldlM_printGroup mem addrs.1.toNat hsize
      (buf.drop (addrs.2.toNat - addrs.1.toNat)) sigs
    rw [hend] at hprint
    set next := bytesAt mem addrs.1.toNat (addrs.2.toNat - addrs.1.toNat) ++
      buf.drop (addrs.2.toNat - addrs.1.toNat)
    have hnext : next.length = size := by
      simp only [next, List.length_append, length_bytesAt, List.length_drop]
      omega
    obtain ⟨buf', hrest⟩ := ih (fun a ha ↦ h a (List.mem_cons_of_mem addrs ha))
      (sigs ++ writeLines (regionLines (leWord mem) addrs.1.toNat addrs.2.toNat)) hnext
    refine ⟨buf', ?_⟩
    rw [List.foldlM_cons, dumpSection, hlen]
    dsimp only
    rw [hread, ok_bind, hcheck, ok_bind, hprint, ok_bind, ok_bind, hrest, List.map_cons,
      sectionLines, sectionLines, List.flatMap_cons, writeLines_append, List.append_assoc]

/-- The signature region and the data sections as the ELF symbols give them. -/
structure Regions where
  sigStart : UInt64
  sigEnd : UInt64
  dataStart : ℕ → UInt64
  dataEnd : ℕ → UInt64

namespace Regions

def dataAddrs (regions : Regions) : List (UInt64 × UInt64) :=
  (List.range 6).map fun i ↦ (regions.dataStart i, regions.dataEnd i)

structure Valid (regions : Regions) : Prop where
  sigLe : regions.sigStart ≤ regions.sigEnd
  sigSize : 16 ∣ regions.sigEnd.toNat - regions.sigStart.toNat
  dataLe : ∀ i < 6, regions.dataStart i ≤ regions.dataEnd i
  dataSize : ∀ i < 6, 16 ∣ (regions.dataEnd i).toNat - (regions.dataStart i).toNat
  /-- The buffer of the region is large enough for every section. -/
  dataFits : ∀ i < 6, (regions.dataEnd i).toNat - (regions.dataStart i).toNat ≤
    regions.sigEnd.toNat - regions.sigStart.toNat

structure Describes (regions : Regions) (symbols : Dict Text UInt64) : Prop where
  sigStart : symbols.get? "begin_signature".toList = some regions.sigStart
  sigEnd : symbols.get? "end_signature".toList = some regions.sigEnd
  dataStart : ∀ i < 6, symbols.get? (dataStartSymbol i) = some (regions.dataStart i)
  dataEnd : ∀ i < 6, symbols.get? (dataEndSymbol i) = some (regions.dataEnd i)

/-- The word memory holds the bytes of the regions as little-endian words. -/
structure Represents (regions : Regions) (memory : Memory) (mem : ByteMemory) : Prop where
  region : Holds memory (leWord mem) regions.sigStart.toNat regions.sigEnd.toNat
  data : ∀ i < 6,
    Holds memory (leWord mem) (regions.dataStart i).toNat (regions.dataEnd i).toNat

end Regions

variable {regions : Regions}

theorem loadProgram_eq {symbols : Dict Text UInt64} (h : regions.Describes symbols) (htif : Htif) :
    loadProgram htif symbols =
      { sigAddr := regions.sigStart, sigLen := regions.sigEnd - regions.sigStart,
        dataAddrs := regions.dataAddrs } := by
  have hdata : (List.range 6).filterMap (fun i ↦
      match symbols.get? (dataStartSymbol i), symbols.get? (dataEndSymbol i) with
      | some dataStart, some dataEnd => some (dataStart, dataEnd)
      | _, _ => none) = regions.dataAddrs := by
    rw [Regions.dataAddrs, ← List.filterMap_eq_map]
    apply List.filterMap_congr
    intro i hi
    rw [h.dataStart i (List.mem_range.mp hi), h.dataEnd i (List.mem_range.mp hi)]
    rfl
  unfold loadProgram
  rw [hdata, h.sigStart, h.sigEnd]

/-- The file that is written for a region that is not empty. -/
theorem stop_eq_ok {sigFile : Text} (htif : Htif) (mem : ByteMemory) (hfile : sigFile ≠ [])
    (hne : htif.sigLen ≠ 0) (hsize : 16 ∣ htif.sigLen.toNat)
    (hfits : ∀ addrs ∈ htif.dataAddrs, addrs.1 ≤ addrs.2 ∧
      16 ∣ addrs.2.toNat - addrs.1.toNat ∧ addrs.2.toNat - addrs.1.toNat ≤ htif.sigLen.toNat) :
    stop htif sigFile mem =
      .ok (some (writeLines
        (regionLines (leWord mem) htif.sigAddr.toNat
          (htif.sigAddr.toNat + htif.sigLen.toNat) ++
        sectionLines (leWord mem)
          (htif.dataAddrs.map fun addrs ↦ (addrs.1.toNat, addrs.2.toNat))))) := by
  set len := htif.sigLen.toNat
  set buf := bytesAt mem htif.sigAddr.toNat len ++ (List.replicate len (0 : UInt8)).drop len
  have hread : read mem htif.sigAddr.toNat len (List.replicate len 0) = .ok buf :=
    read_eq_ok mem htif.sigAddr.toNat List.length_replicate.ge
  have hcheck : checkLen len = .ok () := by
    rw [checkLen, if_pos (Nat.mod_eq_zero_of_dvd hsize)]
  have hprint : (rangeStep 0 len 16).foldlM (printGroup buf) [] = .ok _ :=
    foldlM_printGroup mem htif.sigAddr.toNat hsize _ []
  have hbuf : buf.length = len := by simp [buf]
  obtain ⟨last, hdump⟩ := foldlM_dumpSection mem hfits
    ([] ++ writeLines (regionLines (leWord mem) htif.sigAddr.toNat (htif.sigAddr.toNat + len)))
    hbuf
  rw [stop, if_pos ⟨hfile, hne⟩]
  dsimp only
  rw [hread, ok_bind, hcheck, ok_bind, hprint, ok_bind, hdump, ok_bind, List.nil_append,
    writeLines_append]

theorem regionLines_eq_nil (word : ℕ → UInt64) {start stop : ℕ} (h : stop - start = 0) :
    regionLines word start stop = [] := by
  rw [regionLines, rangeStep, h]
  rfl

/-- `htif_t::stop` writes what `save_signature` writes. For an empty signature region the former
leaves the file alone and the latter writes an empty one. -/
theorem stop_eq_saveSignature {symbols : Dict Text UInt64} {mem : ByteMemory} {memory : Memory}
    {sigFile : Text} (hvalid : regions.Valid) (hsymbols : regions.Describes symbols)
    (hmemory : regions.Represents memory mem) (hfile : sigFile ≠ []) (htif : Htif) :
    ∃ written contents,
      stop (loadProgram htif symbols) sigFile mem = .ok written ∧
      saveSignature memory regions.sigStart.toNat regions.sigEnd.toNat
        (regions.dataAddrs.map fun addrs ↦ (addrs.1.toNat, addrs.2.toNat)) = .ok contents ∧
      written.getD [] = contents ∧
      (regions.sigStart ≠ regions.sigEnd → written = some contents) := by
  set dataAddrs := regions.dataAddrs.map fun addrs ↦ (addrs.1.toNat, addrs.2.toNat) with haddrs
  have hsections : ∀ addrs ∈ dataAddrs,
      16 ∣ addrs.2 - addrs.1 ∧ Holds memory (leWord mem) addrs.1 addrs.2 := by
    intro addrs hmem
    simp only [haddrs, Regions.dataAddrs, List.map_map, List.mem_map, List.mem_range] at hmem
    obtain ⟨i, hi, rfl⟩ := hmem
    exact ⟨hvalid.dataSize i hi, hmemory.data i hi⟩
  have hsave := saveSignature_eq_ok hvalid.sigSize hmemory.region hsections
  have hlen : (regions.sigEnd - regions.sigStart).toNat =
      regions.sigEnd.toNat - regions.sigStart.toNat :=
    UInt64.toNat_sub_of_le _ _ hvalid.sigLe
  rw [loadProgram_eq hsymbols]
  by_cases hempty : regions.sigEnd - regions.sigStart = 0
  · -- every section is as empty as the region
    have hsize : regions.sigEnd.toNat - regions.sigStart.toNat = 0 := by
      rw [← hlen, hempty]
      rfl
    have hregion := regionLines_eq_nil (leWord mem) hsize
    have hdata : sectionLines (leWord mem) dataAddrs = [] := by
      apply List.flatMap_eq_nil_iff.mpr
      intro addrs hmem
      simp only [haddrs, Regions.dataAddrs, List.map_map, List.mem_map, List.mem_range] at hmem
      obtain ⟨i, hi, rfl⟩ := hmem
      have hfits := hvalid.dataFits i hi
      exact regionLines_eq_nil (leWord mem) (by dsimp only [Function.comp]; omega)
    refine ⟨none, [], ?_, ?_, rfl, ?_⟩
    · rw [stop, if_neg (by simp [hempty])]
    · rw [hsave, hregion, hdata]
      rfl
    · intro hne
      have hle : regions.sigStart.toNat ≤ regions.sigEnd.toNat := hvalid.sigLe
      exact absurd (UInt64.toNat_inj.mp (by omega)) hne
  · have hend : regions.sigStart.toNat + (regions.sigEnd.toNat - regions.sigStart.toNat) =
        regions.sigEnd.toNat :=
      Nat.add_sub_cancel' hvalid.sigLe
    have hfits : ∀ addrs ∈ regions.dataAddrs, addrs.1 ≤ addrs.2 ∧
        16 ∣ addrs.2.toNat - addrs.1.toNat ∧
        addrs.2.toNat - addrs.1.toNat ≤ (regions.sigEnd - regions.sigStart).toNat := by
      intro addrs hmem
      obtain ⟨i, hi, rfl⟩ := List.mem_map.mp hmem
      have hlt := List.mem_range.mp hi
      exact ⟨hvalid.dataLe i hlt, hvalid.dataSize i hlt, hlen ▸ hvalid.dataFits i hlt⟩
    have hstop := stop_eq_ok
      { sigAddr := regions.sigStart, sigLen := regions.sigEnd - regions.sigStart,
        dataAddrs := regions.dataAddrs }
      mem hfile hempty (hlen ▸ hvalid.sigSize) hfits
    dsimp only at hstop
    rw [hlen, hend] at hstop
    exact ⟨_, _, hstop, hsave, rfl, fun _ ↦ rfl⟩

/-- The word memory that represents a byte memory everywhere. -/
def wordMemory (mem : ByteMemory) : Memory := fun addr ↦ some (leWord mem addr).toNat

theorem holds_wordMemory (mem : ByteMemory) (start stop : ℕ) :
    Holds (wordMemory mem) (leWord mem) start stop :=
  fun _ _ ↦ rfl

/-- The regions of the linked test. -/
def linkedRegions : Regions where
  sigStart := 0x80002000
  sigEnd := 0x800022f0
  dataStart i := 0x80003000 + 0x40 * UInt64.ofNat i
  dataEnd i := 0x80003020 + 0x40 * UInt64.ofNat i

def linkedRegionSymbols : Dict Text UInt64 where
  entries :=
    [("begin_signature".toList, linkedRegions.sigStart),
      ("end_signature".toList, linkedRegions.sigEnd)] ++
    (List.range 6).map (fun i ↦ (dataStartSymbol i, linkedRegions.dataStart i)) ++
    (List.range 6).map (fun i ↦ (dataEndSymbol i, linkedRegions.dataEnd i))
  nodup := by decide

theorem stop_eq_saveSignature_linked :
    ∃ written contents,
      stop (loadProgram {} linkedRegionSymbols) "sig.txt".toList UInt8.ofNat = .ok written ∧
      saveSignature (wordMemory UInt8.ofNat) linkedRegions.sigStart.toNat
        linkedRegions.sigEnd.toNat
        (linkedRegions.dataAddrs.map fun addrs ↦ (addrs.1.toNat, addrs.2.toNat)) =
          .ok contents ∧
      written.getD [] = contents ∧
      (linkedRegions.sigStart ≠ linkedRegions.sigEnd → written = some contents) :=
  stop_eq_saveSignature
    { sigLe := by decide
      sigSize := by decide
      dataLe := by decide
      dataSize := by decide
      dataFits := by decide }
    { sigStart := by decide
      sigEnd := by decide
      dataStart := by decide
      dataEnd := by decide }
    { region := holds_wordMemory UInt8.ofNat _ _
      data := fun _ _ ↦ holds_wordMemory UInt8.ofNat _ _ }
    (by decide) {}

end ProcessorFuzz.Execution.HtifSignature
