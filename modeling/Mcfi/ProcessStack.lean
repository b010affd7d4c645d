import Mathlib.Algebra.BigOperators.Group.List.Basic
import Mcfi.CodeHeap
import Mcfi.Lib.ByteRegions

namespace Mcfi

/-!
# The stack of the sandboxed program

The kernel starts the runtime with the arguments, the environment and the
auxiliary vector on a stack of its own.  `extract_elf_load_data` measures them,
and `build_stack` copies them to the top of the sandbox stack: a pointer area,
and behind it the pool of the strings.  The kernel's memory is read through the
pointers of the auxiliary vector only.
-/

/-- A string without its terminating zero. -/
structure CString where
  bytes : List UInt8
  terminated : 0 ∉ bytes
  deriving DecidableEq

/-- `auxv_t`; the vector ends before the first entry of type `AT_NULL`. -/
structure AuxEntry where
  aType : Int32
  aVal : UInt64
  notNull : aType ≠ 0
  deriving DecidableEq

/-- What the kernel passes, and its memory behind the pointers of the vector. -/
structure KernelStack where
  argv : List CString
  envp : List CString
  auxv : List AuxEntry
  stringAt : UInt64 → CString
  randomAt : UInt64 → UInt64 × UInt64

def atBase : Int32 := 7

def atPlatform : Int32 := 15

def atHwcap : Int32 := 16

def atRandom : Int32 := 25

def atExecfn : Int32 := 31

def atSysinfoEhdr : Int32 := 33

/-- `AUX_CNT`. -/
def auxCnt : Nat := 38

/-- The sandbox stack that `alloc_sandbox` maps starts here and ends at 4 GB. -/
def stackStart : Nat := fourGB - 0x10000 * 128

/-- `stack` when `stack_init` runs. -/
def stackTop : Nat := fourGB - 8

/-- What keeps the two functions from doing their work. -/
inductive LoadFault where
  /-- `aux` has no element of this index. -/
  | auxIndex (aType : Int32)
  /-- A count leaves the range of `int`. -/
  | intOverflow
  /-- The new stack leaves the mapped one. -/
  | unmapped
  deriving DecidableEq, Repr

/-- The globals that `extract_elf_load_data` sets. -/
structure LoadData where
  ltArgc : Nat := 0
  ltArgv : List CString := []
  ltEnvc : Nat := 0
  ltEnvp : List CString := []
  ltAuxc : Nat := 0
  ltAuxv : List AuxEntry := []
  aux : Vector UInt64 auxCnt := Vector.replicate auxCnt 0
  ltStackSize : UInt64 := 0
  ltArrayAreaSize : UInt64 := 0
  /-- A string of the environment, and where in it the value starts. -/
  mcfiSdk : Option (CString × Nat) := none
  home : Option (CString × Nat) := none

namespace LoadData

/-- `lt_stack_size += size`. -/
def addStack (data : LoadData) (size : Nat) : LoadData :=
  { data with ltStackSize := data.ltStackSize + UInt64.ofNat size }

/-- The two lines that count a vector of the pointer area. -/
def addArray (data : LoadData) (size : Nat) : LoadData :=
  { data.addStack size with
    ltArrayAreaSize := data.ltArrayAreaSize + UInt64.ofNat size }

/-- The loop over `lt_argv`. -/
def scanArg (data : LoadData) (text : CString) : LoadData :=
  data.addStack (text.bytes.length + 1)

/-- `strncmp` with all of a name. -/
def startsWith (text : CString) (name : String) : Bool :=
  text.bytes.take name.length == name.toList.map fun char => UInt8.ofNat char.toNat

/-- The loop over `lt_envp`. -/
def scanEnv (data : LoadData) (text : CString) : LoadData :=
  let named :=
    if startsWith text "MCFI_SDK" then { data with mcfiSdk := some (text, 9) }
    else if startsWith text "HOME" then { data with home := some (text, 5) }
    else data
  named.addStack (text.bytes.length + 1)

/-- The loop over `lt_auxv`; its counter is overwritten behind the loop. -/
def scanAux (kernel : KernelStack) (data : LoadData) (entry : AuxEntry) :
    Except LoadFault LoadData :=
  if inside : 0 ≤ entry.aType.toInt ∧ entry.aType.toInt.toNat < auxCnt then
    let recorded :=
      { data with aux := data.aux.set entry.aType.toInt.toNat entry.aVal inside.2 }
    if entry.aType = atPlatform then
      .ok (recorded.addStack ((kernel.stringAt entry.aVal).bytes.length + 1))
    else if entry.aType = atRandom then
      .ok (recorded.addStack 16)
    else if entry.aType = atExecfn then
      .ok (recorded.addStack ((kernel.stringAt entry.aVal).bytes.length + 1))
    else
      .ok recorded
  else
    .error (.auxIndex entry.aType)

end LoadData

/-- An `int` expression. -/
def intValue (value : Nat) : Except LoadFault Nat :=
  if value < 2 ^ 31 then .ok value else .error .intOverflow

/-- `extract_elf_load_data`. -/
def extractElfLoadData (kernel : KernelStack) : Except LoadFault LoadData := do
  let started : LoadData :=
    { ltArgc := kernel.argv.length, ltArgv := kernel.argv, ltEnvp := kernel.envp,
      ltEnvc := kernel.envp.length, ltAuxv := kernel.auxv }
  let args := kernel.argv.foldl LoadData.scanArg (started.addArray 8)
  let argSize ← intValue ((kernel.argv.length + 1) * 8)
  let envs := kernel.envp.foldl LoadData.scanEnv (args.addArray argSize)
  let envSize ← intValue ((kernel.envp.length + 1) * 8)
  let auxs ← kernel.auxv.foldlM (LoadData.scanAux kernel) (envs.addArray envSize)
  let auxCount ← intValue (kernel.auxv.length + 1)
  return { auxs with ltAuxc := kernel.auxv.length }.addArray (auxCount * 16)

/-- The variables of `build_stack`. -/
structure Build where
  mem : ByteMem
  top : Nat
  pool : Nat

namespace Build

/-- `writeval`. -/
def writeval (build : Build) (value : Nat) : Build :=
  { build with mem := build.mem.store64 build.top value, top := build.top + 8 }

@[simp] theorem writeval_pool (build : Build) (value : Nat) :
    (build.writeval value).pool = build.pool :=
  rfl

/-- `copystr`; the terminator is not written. -/
def copystr (build : Build) (text : CString) : Build :=
  { build with
    mem := build.mem.storeBytes build.pool text.bytes
    pool := build.pool + (text.bytes.length + 1) }

/-- The loops over `lt_argv` and `lt_envp`. -/
def writeString (build : Build) (text : CString) : Build :=
  (build.writeval build.pool).copystr text

/-- The two words that `AT_RANDOM` points to. -/
def copyRandom (build : Build) (words : UInt64 × UInt64) : Build :=
  { build with
    mem := (build.mem.store64 build.pool words.1.toNat).store64 (build.pool + 8)
      words.2.toNat
    pool := build.pool + 16 }

end Build

/-- `(unsigned long)lt_auxv[i].a_type`. -/
def AuxEntry.typeWord (entry : AuxEntry) : Nat :=
  entry.aType.toInt64.toUInt64.toNat

/-- The loop over `lt_auxv`. -/
def Build.writeAux (kernel : KernelStack) (libcBase : UInt64) (build : Build)
    (entry : AuxEntry) : Build :=
  if entry.aType = atSysinfoEhdr ∨ entry.aType = atHwcap then
    build
  else if entry.aType = atBase then
    (build.writeval entry.typeWord).writeval libcBase.toNat
  else if entry.aType = atRandom then
    ((build.writeval entry.typeWord).writeval build.pool).copyRandom
      (kernel.randomAt entry.aVal)
  else if entry.aType = atPlatform ∨ entry.aType = atExecfn then
    ((build.writeval entry.typeWord).writeval build.pool).copystr
      (kernel.stringAt entry.aVal)
  else
    (build.writeval entry.typeWord).writeval entry.aVal.toNat

/-- The stack pointer that `build_stack` returns. -/
def LoadData.stackPointer (data : LoadData) (stackTop : Nat) : Nat :=
  (stackTop + 2 ^ 64 - data.ltStackSize.toNat) % 2 ^ 64 / 16 * 16

/-- `build_stack`: the stack pointer, and the variables at its end. -/
def buildStack (kernel : KernelStack) (data : LoadData) (stackTop : Nat)
    (libcBase : UInt64) (mem : ByteMem) : Except LoadFault (Nat × Build) :=
  let rv := data.stackPointer stackTop
  if stackStart ≤ rv ∧ rv + data.ltStackSize.toNat ≤ fourGB then
    let zeroed : Build :=
      { mem := mem.fill rv data.ltStackSize.toNat 0, top := rv,
        pool := rv + data.ltArrayAreaSize.toNat }
    let args := data.ltArgv.foldl Build.writeString (zeroed.writeval data.ltArgc)
    let envs := data.ltEnvp.foldl Build.writeString (args.writeval 0)
    .ok (rv, data.ltAuxv.foldl (Build.writeAux kernel libcBase) (envs.writeval 0))
  else
    .error .unmapped

/-!
## The System V layout
-/

/-- What an entry of the auxiliary vector says. -/
inductive AuxValue where
  | word (value : UInt64)
  | random (words : UInt64 × UInt64)
  | text (text : CString)

/-- An entry as a program reads it. -/
structure AuxItem where
  aType : Nat
  value : AuxValue

/-- What a program finds on its stack when it starts. -/
structure ProcessStart where
  argv : List CString
  envp : List CString
  auxv : List AuxItem

/-- A string with its terminator lies at an address. -/
def StringAt (mem : ByteMem) (addr : Nat) (text : CString) : Prop :=
  mem.BytesAt addr (text.bytes ++ [0])

/-- Pointers to strings up to a null pointer, and the address behind it. -/
inductive ReadsStrings (mem : ByteMem) : Nat → List CString → Nat → Prop
  | null {addr : Nat} (zero : mem.load64 addr = 0) : ReadsStrings mem addr [] (addr + 8)
  | string {addr behind : Nat} {text : CString} {rest : List CString}
      (pointer : mem.load64 addr ≠ 0) (present : StringAt mem (mem.load64 addr) text)
      (others : ReadsStrings mem (addr + 8) rest behind) :
      ReadsStrings mem addr (text :: rest) behind

/-- The value of an entry, by its type. -/
def ReadsValue (mem : ByteMem) (aType raw : Nat) (value : AuxValue) : Prop :=
  if aType = 25 then
    ∃ words : UInt64 × UInt64, value = .random words ∧
      mem.load64 raw = words.1.toNat ∧ mem.load64 (raw + 8) = words.2.toNat
  else if aType = 15 ∨ aType = 31 then
    ∃ text, value = .text text ∧ StringAt mem raw text
  else
    ∃ word : UInt64, value = .word word ∧ raw = word.toNat

/-- Entries up to one of type `AT_NULL`. -/
inductive ReadsAux (mem : ByteMem) : Nat → List AuxItem → Prop
  | null {addr : Nat} (zero : mem.load64 addr = 0) : ReadsAux mem addr []
  | entry {addr : Nat} {item : AuxItem} {rest : List AuxItem}
      (type : mem.load64 addr = item.aType) (notNull : item.aType ≠ 0)
      (value : ReadsValue mem item.aType (mem.load64 (addr + 8)) item.value)
      (others : ReadsAux mem (addr + 16) rest) :
      ReadsAux mem addr (item :: rest)

/-- A stack pointer below which a program finds what it is started with. -/
def Decodes (mem : ByteMem) (rsp : Nat) (start : ProcessStart) : Prop :=
  mem.load64 rsp = start.argv.length ∧
    ∃ envAt auxAt, ReadsStrings mem (rsp + 8) start.argv envAt ∧
      ReadsStrings mem envAt start.envp auxAt ∧ ReadsAux mem auxAt start.auxv

/-- A string is determined by its address. -/
theorem StringAt.unique {mem : ByteMem} {addr : Nat} {first second : CString}
    (firstAt : StringAt mem addr first) (secondAt : StringAt mem addr second) :
    first = second := by
  have same :=
    ByteMem.BytesAt.unique first.terminated second.terminated firstAt secondAt
  cases first
  cases second
  cases same
  rfl

theorem ReadsStrings.unique {mem : ByteMem} {addr behind otherBehind : Nat}
    {first second : List CString}
    (firstReads : ReadsStrings mem addr first behind)
    (secondReads : ReadsStrings mem addr second otherBehind) :
    first = second ∧ behind = otherBehind := by
  induction firstReads generalizing second with
  | null zero =>
      cases secondReads with
      | null => exact ⟨rfl, rfl⟩
      | string pointer => exact absurd zero pointer
  | string pointer present others inductionHypothesis =>
      cases secondReads with
      | null zero => exact absurd zero pointer
      | string _ otherPresent otherOthers =>
          obtain ⟨rest, behind⟩ := inductionHypothesis otherOthers
          exact ⟨by rw [present.unique otherPresent, rest], behind⟩

theorem ReadsValue.unique {mem : ByteMem} {aType raw : Nat} {first second : AuxValue}
    (firstReads : ReadsValue mem aType raw first)
    (secondReads : ReadsValue mem aType raw second) :
    first = second := by
  unfold ReadsValue at firstReads secondReads
  split at firstReads
  next isRandom =>
    rw [if_pos isRandom] at secondReads
    obtain ⟨words, rfl, low, high⟩ := firstReads
    obtain ⟨others, rfl, otherLow, otherHigh⟩ := secondReads
    have lows : words.1 = others.1 := UInt64.toNat_inj.mp (low.symm.trans otherLow)
    have highs : words.2 = others.2 := UInt64.toNat_inj.mp (high.symm.trans otherHigh)
    rw [Prod.ext lows highs]
  next notRandom =>
    rw [if_neg notRandom] at secondReads
    split at firstReads
    next isText =>
      rw [if_pos isText] at secondReads
      obtain ⟨text, rfl, present⟩ := firstReads
      obtain ⟨other, rfl, otherPresent⟩ := secondReads
      rw [present.unique otherPresent]
    next notText =>
      rw [if_neg notText] at secondReads
      obtain ⟨word, rfl, same⟩ := firstReads
      obtain ⟨other, rfl, otherSame⟩ := secondReads
      rw [UInt64.toNat_inj.mp (same.symm.trans otherSame)]

theorem ReadsAux.unique {mem : ByteMem} {addr : Nat} {first second : List AuxItem}
    (firstReads : ReadsAux mem addr first) (secondReads : ReadsAux mem addr second) :
    first = second := by
  induction firstReads generalizing second with
  | null zero =>
      cases secondReads with
      | null => rfl
      | entry type notNull => exact absurd (type.symm.trans zero) notNull
  | @entry _ item _ type notNull value others inductionHypothesis =>
      cases secondReads with
      | null zero => exact absurd (type.symm.trans zero) notNull
      | @entry _ other _ otherType _ otherValue otherOthers =>
          have types : item.aType = other.aType := type.symm.trans otherType
          rw [types] at value
          have values := value.unique otherValue
          cases item
          cases other
          cases types
          cases values
          rw [inductionHypothesis otherOthers]

/-- A stack says one thing. -/
theorem Decodes.unique {mem : ByteMem} {rsp : Nat} {first second : ProcessStart}
    (firstReads : Decodes mem rsp first) (secondReads : Decodes mem rsp second) :
    first = second := by
  obtain ⟨-, envAt, auxAt, args, envs, auxs⟩ := firstReads
  obtain ⟨-, otherEnvAt, otherAuxAt, otherArgs, otherEnvs, otherAuxs⟩ := secondReads
  obtain ⟨sameArgs, rfl⟩ := args.unique otherArgs
  obtain ⟨sameEnvs, rfl⟩ := envs.unique otherEnvs
  have sameAuxs := auxs.unique otherAuxs
  cases first
  cases second
  cases sameArgs
  cases sameEnvs
  cases sameAuxs
  rfl

/-!
## What the loops write
-/

/-- What one turn writes: words, which may point to the pool, and pool bytes. -/
structure Piece where
  words : Nat → List Nat
  bytes : List UInt8

/-- The words of several turns, from where the pool is before them. -/
def pieceWords (pool : Nat) : List Piece → List Nat
  | [] => []
  | piece :: rest => piece.words pool ++ pieceWords (pool + piece.bytes.length) rest

/-- The pool bytes of several turns. -/
def pieceBytes (pieces : List Piece) : List UInt8 :=
  pieces.flatMap Piece.bytes

/-- The turn of a string. -/
def CString.piece (text : CString) : Piece where
  words pool := [pool]
  bytes := text.bytes ++ [0]

/-- The turn of an entry. -/
def KernelStack.auxPiece (kernel : KernelStack) (libcBase : UInt64) (entry : AuxEntry) :
    Piece :=
  if entry.aType = atSysinfoEhdr ∨ entry.aType = atHwcap then
    ⟨fun _ => [], []⟩
  else if entry.aType = atBase then
    ⟨fun _ => [entry.typeWord, libcBase.toNat], []⟩
  else if entry.aType = atRandom then
    ⟨fun pool => [entry.typeWord, pool],
      ByteMem.littleEndian 8 (kernel.randomAt entry.aVal).1.toNat ++
        ByteMem.littleEndian 8 (kernel.randomAt entry.aVal).2.toNat⟩
  else if entry.aType = atPlatform ∨ entry.aType = atExecfn then
    ⟨fun pool => [entry.typeWord, pool], (kernel.stringAt entry.aVal).bytes ++ [0]⟩
  else
    ⟨fun _ => [entry.typeWord, entry.aVal.toNat], []⟩

/-- The variables after these words and pool bytes have been written. -/
structure Build.Wrote (original : ByteMem) (start split size : Nat) (build : Build)
    (words : List Nat) (bytes : List UInt8) : Prop where
  top : build.top = start + 8 * words.length
  pool : build.pool = start + split + bytes.length
  filling : ByteMem.Filling original build.mem start split size words bytes

namespace Build

variable {original : ByteMem} {start split size : Nat} {build : Build}
  {words : List Nat} {bytes : List UInt8}

/-- A block of zeros before the first word. -/
theorem wrote_fresh (original : ByteMem) (start : Nat) {split size : Nat}
    (fits : split ≤ size) :
    Wrote original start split size
      { mem := original.fill start size 0, top := start, pool := start + split } [] [] where
  top := rfl
  pool := rfl
  filling := ByteMem.Filling.fresh original start fits

theorem wrote_writeval {value : Nat}
    (wrote : build.Wrote original start split size words bytes)
    (small : value < 2 ^ 64) (room : 8 * (words.length + 1) ≤ split) :
    (build.writeval value).Wrote original start split size (words ++ [value]) bytes where
  top := by
    rw [writeval, wrote.top, List.length_append, List.length_singleton]
    rfl
  pool := wrote.pool
  filling := by
    rw [writeval, wrote.top]
    exact wrote.filling.appendWord small room

theorem wrote_copystr {text : CString}
    (wrote : build.Wrote original start split size words bytes)
    (room : split + bytes.length + (text.bytes.length + 1) ≤ size) :
    (build.copystr text).Wrote original start split size words
      (bytes ++ (text.bytes ++ [0])) where
  top := wrote.top
  pool := by
    rw [copystr, wrote.pool, List.length_append, List.length_append, List.length_singleton,
      Nat.add_assoc _ bytes.length]
  filling := by
    rw [copystr, wrote.pool, ← List.append_assoc]
    apply ByteMem.Filling.skipByte
    · exact wrote.filling.appendBytes text.bytes (by omega)
    · rw [List.length_append]
      omega

theorem wrote_copyRandom {random : UInt64 × UInt64}
    (wrote : build.Wrote original start split size words bytes)
    (room : split + bytes.length + 16 ≤ size) :
    (build.copyRandom random).Wrote original start split size words
      (bytes ++ (ByteMem.littleEndian 8 random.1.toNat ++
        ByteMem.littleEndian 8 random.2.toNat)) where
  top := wrote.top
  pool := by
    have before := wrote.pool
    simp only [copyRandom, List.length_append, ByteMem.length_littleEndian]
    omega
  filling := by
    have low := wrote.filling.appendBytes (ByteMem.littleEndian 8 random.1.toNat)
      (by rw [ByteMem.length_littleEndian]; omega)
    have high := low.appendBytes (ByteMem.littleEndian 8 random.2.toNat)
      (by simp only [List.length_append, ByteMem.length_littleEndian]; omega)
    rw [List.length_append, ByteMem.length_littleEndian, ← Nat.add_assoc, ← wrote.pool,
      ← ByteMem.store64_eq_storeBytes, ← ByteMem.store64_eq_storeBytes,
      List.append_assoc] at high
    exact high

end Build

section Turns

variable {original : ByteMem} {start split size : Nat} {build : Build}
  {words : List Nat} {bytes : List UInt8}

/-- A part of `build_stack` writes these pieces wherever there is room for them. -/
def Writes (original : ByteMem) (start split size : Nat) (part : Build → Build)
    (pieces : List Piece) : Prop :=
  ∀ build words bytes, build.Wrote original start split size words bytes →
    8 * (words.length + (pieceWords build.pool pieces).length) ≤ split →
    split + bytes.length + (pieceBytes pieces).length ≤ size →
    (part build).Wrote original start split size
      (words ++ pieceWords build.pool pieces) (bytes ++ pieceBytes pieces)

theorem pieceWords_append (pool : Nat) (front back : List Piece) :
    pieceWords pool (front ++ back) =
      pieceWords pool front ++ pieceWords (pool + (pieceBytes front).length) back := by
  induction front generalizing pool with
  | nil => rfl
  | cons piece rest inductionHypothesis =>
      rw [List.cons_append, pieceWords, pieceWords, inductionHypothesis, pieceBytes,
        pieceBytes, List.flatMap_cons, List.length_append, List.append_assoc, Nat.add_assoc]

@[simp] theorem pieceWords_singleton (pool : Nat) (piece : Piece) :
    pieceWords pool [piece] = piece.words pool :=
  List.append_nil _

@[simp] theorem pieceBytes_append (front back : List Piece) :
    pieceBytes (front ++ back) = pieceBytes front ++ pieceBytes back :=
  List.flatMap_append

@[simp] theorem pieceBytes_singleton (piece : Piece) :
    pieceBytes [piece] = piece.bytes :=
  List.append_nil _

namespace Writes

variable {first second : Build → Build} {front back : List Piece}

/-- Two parts, one after the other. -/
theorem append (firstWrites : Writes original start split size first front)
    (secondWrites : Writes original start split size second back) :
    Writes original start split size (fun build => second (first build))
      (front ++ back) := by
  intro build words bytes wrote wordRoom byteRoom
  rw [pieceWords_append, List.length_append] at wordRoom
  rw [pieceBytes_append, List.length_append] at byteRoom
  have middle := firstWrites _ _ _ wrote (by omega) (by omega)
  have pool : (first build).pool = build.pool + (pieceBytes front).length := by
    rw [middle.pool, wrote.pool, List.length_append, Nat.add_assoc _ bytes.length]
  rw [pieceWords_append, pieceBytes_append, ← List.append_assoc, ← List.append_assoc, ← pool]
  rw [← pool] at wordRoom
  apply secondWrites _ _ _ middle
  · rw [List.length_append]
    omega
  · rw [List.length_append]
    omega

/-- A loop writes the pieces of its turns. -/
theorem foldl {α : Type} {turn : Build → α → Build} {piece : α → Piece}
    (turns : ∀ item, Writes original start split size (fun build => turn build item)
      [piece item])
    (items : List α) :
    Writes original start split size (fun build => items.foldl turn build)
      (items.map piece) := by
  induction items with
  | nil =>
      intro build words bytes wrote _ _
      simp only [List.map_nil, pieceWords, pieceBytes, List.flatMap_nil, List.append_nil]
      exact wrote
  | cons item rest inductionHypothesis =>
      exact (turns item).append inductionHypothesis

end Writes

/-- The pool stays below 4 GB. -/
private theorem Build.Wrote.pool_lt
    (wrote : build.Wrote original start split size words bytes)
    (below : start + size ≤ fourGB) :
    build.pool < 2 ^ 64 := by
  have inBlock := wrote.filling.bytesFit
  have small : fourGB < 2 ^ 64 := by decide
  rw [wrote.pool]
  omega

theorem writeString_writes (below : start + size ≤ fourGB) (text : CString) :
    Writes original start split size (fun build => build.writeString text) [text.piece] := by
  intro build words bytes wrote wordRoom byteRoom
  rw [pieceWords_singleton] at wordRoom ⊢
  rw [pieceBytes_singleton] at byteRoom ⊢
  have stored := Build.wrote_writeval wrote (wrote.pool_lt below) wordRoom
  apply Build.wrote_copystr stored
  rw [CString.piece, List.length_append, List.length_singleton] at byteRoom
  exact byteRoom

/-- The type of an entry and one more word. -/
private theorem wrote_pair {first second : Nat}
    (wrote : build.Wrote original start split size words bytes)
    (firstSmall : first < 2 ^ 64) (secondSmall : second < 2 ^ 64)
    (room : 8 * (words.length + 2) ≤ split) :
    ((build.writeval first).writeval second).Wrote original start split size
      (words ++ [first, second]) bytes := by
  have one := Build.wrote_writeval wrote firstSmall (by omega)
  have two := Build.wrote_writeval one secondSmall
    (by rw [List.length_append, List.length_singleton]; exact room)
  rw [List.append_assoc] at two
  exact two

theorem writeAux_writes (kernel : KernelStack) (libcBase : UInt64)
    (below : start + size ≤ fourGB) (entry : AuxEntry) :
    Writes original start split size (fun build => build.writeAux kernel libcBase entry)
      [kernel.auxPiece libcBase entry] := by
  intro build words bytes wrote wordRoom byteRoom
  rw [pieceWords_singleton] at wordRoom ⊢
  rw [pieceBytes_singleton] at byteRoom ⊢
  have typeSmall : entry.typeWord < 2 ^ 64 := UInt64.toNat_lt _
  have poolSmall := wrote.pool_lt below
  unfold KernelStack.auxPiece at wordRoom byteRoom ⊢
  unfold Build.writeAux
  split at wordRoom
  next dropped =>
    simp only [if_pos dropped, List.append_nil]
    exact wrote
  next notDropped =>
    simp only [if_neg notDropped] at byteRoom ⊢
    split at wordRoom
    next isBase =>
      simp only [if_pos isBase, List.append_nil]
      exact wrote_pair wrote typeSmall (UInt64.toNat_lt _) wordRoom
    next notBase =>
      simp only [if_neg notBase] at byteRoom ⊢
      split at wordRoom
      next isRandom =>
        simp only [if_pos isRandom, List.length_append, ByteMem.length_littleEndian]
          at byteRoom ⊢
        exact Build.wrote_copyRandom (wrote_pair wrote typeSmall poolSmall wordRoom) byteRoom
      next notRandom =>
        simp only [if_neg notRandom] at byteRoom ⊢
        split at wordRoom
        next isText =>
          simp only [if_pos isText, List.length_append, List.length_singleton]
            at byteRoom ⊢
          exact Build.wrote_copystr (wrote_pair wrote typeSmall poolSmall wordRoom) byteRoom
        next notText =>
          simp only [if_neg notText, List.append_nil]
          exact wrote_pair wrote typeSmall (UInt64.toNat_lt _) wordRoom

/-- The turn of a word that is no pointer. -/
def wordPiece (word : Nat) : Piece :=
  ⟨fun _ => [word], []⟩

@[simp] theorem wordPiece_words (word pool : Nat) : (wordPiece word).words pool = [word] :=
  rfl

@[simp] theorem wordPiece_bytes (word : Nat) : (wordPiece word).bytes = [] :=
  rfl

theorem writeval_writes {word : Nat} (small : word < 2 ^ 64) :
    Writes original start split size (fun build => build.writeval word)
      [wordPiece word] := by
  intro build words bytes wrote wordRoom _
  rw [pieceWords_singleton] at wordRoom ⊢
  rw [pieceBytes_singleton]
  simp only [wordPiece, List.append_nil]
  exact Build.wrote_writeval wrote small wordRoom

end Turns

/-!
## What the measuring pass counts
-/

/-- The pool bytes of a string. -/
def CString.poolSize (text : CString) : Nat :=
  text.bytes.length + 1

namespace KernelStack

/-- The pool bytes of an entry. -/
def auxPoolSize (kernel : KernelStack) (entry : AuxEntry) : Nat :=
  if entry.aType = atPlatform ∨ entry.aType = atExecfn then
    (kernel.stringAt entry.aVal).poolSize
  else if entry.aType = atRandom then
    16
  else
    0

/-- The argument count, three vectors, and the end of each. -/
def arraySize (kernel : KernelStack) : Nat :=
  8 + (kernel.argv.length + 1) * 8 + (kernel.envp.length + 1) * 8 +
    (kernel.auxv.length + 1) * 16

/-- All strings, and what `AT_RANDOM` points to. -/
def poolSize (kernel : KernelStack) : Nat :=
  (kernel.argv.map CString.poolSize).sum + (kernel.envp.map CString.poolSize).sum +
    (kernel.auxv.map kernel.auxPoolSize).sum

/-- Everything that goes to the new stack. -/
def stackSize (kernel : KernelStack) : Nat :=
  kernel.arraySize + kernel.poolSize

end KernelStack

namespace LoadData

/-- The strings and vectors of the kernel, which no loop changes. -/
def passed (data : LoadData) :
    Nat × List CString × Nat × List CString × List AuxEntry :=
  (data.ltArgc, data.ltArgv, data.ltEnvc, data.ltEnvp, data.ltAuxv)

/-- A pass over the kernel's data counts these many bytes. -/
structure Grows (before after : LoadData) (stack array : Nat) : Prop where
  stack : after.ltStackSize = before.ltStackSize + UInt64.ofNat stack
  array : after.ltArrayAreaSize = before.ltArrayAreaSize + UInt64.ofNat array
  passed : after.passed = before.passed

namespace Grows

variable {before middle after : LoadData} {stack array moreStack moreArray : Nat}

theorem refl (data : LoadData) : Grows data data 0 0 where
  stack := (UInt64.add_zero _).symm
  array := (UInt64.add_zero _).symm
  passed := rfl

theorem trans (first : Grows before middle stack array)
    (second : Grows middle after moreStack moreArray) :
    Grows before after (stack + moreStack) (array + moreArray) where
  stack := by
    rw [second.stack, first.stack, UInt64.ofNat_add, UInt64.add_assoc]
  array := by
    rw [second.array, first.array, UInt64.ofNat_add, UInt64.add_assoc]
  passed := second.passed.trans first.passed

theorem addStack (data : LoadData) (size : Nat) : Grows data (data.addStack size) size 0 where
  stack := rfl
  array := (UInt64.add_zero _).symm
  passed := rfl

theorem addArray (data : LoadData) (size : Nat) :
    Grows data (data.addArray size) size size where
  stack := rfl
  array := rfl
  passed := rfl

/-- A loop counts what its turns count. -/
theorem foldl {α : Type} {turn : LoadData → α → LoadData} {cost : α → Nat}
    (turns : ∀ data item, Grows data (turn data item) (cost item) 0)
    (items : List α) (data : LoadData) :
    Grows data (items.foldl turn data) (items.map cost).sum 0 := by
  induction items generalizing data with
  | nil => exact refl data
  | cons item rest inductionHypothesis =>
      rw [List.foldl_cons, List.map_cons, List.sum_cons]
      exact (turns data item).trans (inductionHypothesis (turn data item))

theorem scanArg (data : LoadData) (text : CString) :
    Grows data (data.scanArg text) text.poolSize 0 :=
  addStack data text.poolSize

theorem scanEnv (data : LoadData) (text : CString) :
    Grows data (data.scanEnv text) text.poolSize 0 := by
  unfold LoadData.scanEnv
  split
  next => exact ⟨rfl, (UInt64.add_zero _).symm, rfl⟩
  next =>
    split
    next => exact ⟨rfl, (UInt64.add_zero _).symm, rfl⟩
    next => exact addStack data text.poolSize

end Grows

/-- The types that `aux` has an element for. -/
def InAux (entry : AuxEntry) : Prop :=
  0 ≤ entry.aType.toInt ∧ entry.aType.toInt.toNat < auxCnt

instance (entry : AuxEntry) : Decidable (InAux entry) :=
  inferInstanceAs (Decidable (_ ∧ _))

/-- A turn over the auxiliary vector ends when `aux` has the element. -/
theorem scanAux_returns (kernel : KernelStack) (data : LoadData) (entry : AuxEntry) :
    (∃ after, data.scanAux kernel entry = .ok after) ↔ InAux entry := by
  unfold scanAux InAux
  split
  next inside =>
    constructor
    · intro _
      exact inside
    · intro _
      split
      next => exact ⟨_, rfl⟩
      next =>
        split
        next => exact ⟨_, rfl⟩
        next =>
          split
          next => exact ⟨_, rfl⟩
          next => exact ⟨_, rfl⟩
  next outside =>
    constructor
    · rintro ⟨after, returned⟩
      exact nomatch returned
    · intro inside
      exact absurd inside outside

/-- It counts the pool bytes of its entry. -/
theorem scanAux_grows {kernel : KernelStack} {data after : LoadData} {entry : AuxEntry}
    (scanned : data.scanAux kernel entry = .ok after) :
    Grows data after (kernel.auxPoolSize entry) 0 := by
  unfold scanAux at scanned
  unfold KernelStack.auxPoolSize
  split at scanned
  next inside =>
    split at scanned
    next isPlatform =>
      cases scanned
      rw [if_pos (Or.inl isPlatform)]
      exact ⟨rfl, (UInt64.add_zero _).symm, rfl⟩
    next notPlatform =>
      split at scanned
      next isRandom =>
        cases scanned
        have notText : ¬ (entry.aType = atPlatform ∨ entry.aType = atExecfn) := by
          rw [isRandom]
          decide
        rw [if_neg notText, if_pos isRandom]
        exact ⟨rfl, (UInt64.add_zero _).symm, rfl⟩
      next notRandom =>
        split at scanned
        next isExecfn =>
          cases scanned
          rw [if_pos (Or.inr isExecfn)]
          exact ⟨rfl, (UInt64.add_zero _).symm, rfl⟩
        next notExecfn =>
          cases scanned
          rw [if_neg (not_or.mpr ⟨notPlatform, notExecfn⟩), if_neg notRandom]
          exact ⟨(UInt64.add_zero _).symm, (UInt64.add_zero _).symm, rfl⟩
  next =>
    exact nomatch scanned

/-- The loop ends when `aux` has all elements, and counts all pool bytes. -/
theorem scanAux_foldlM (kernel : KernelStack) (entries : List AuxEntry) (data : LoadData) :
    (∃ after, entries.foldlM (scanAux kernel) data = .ok after) ↔
      ∀ entry ∈ entries, InAux entry := by
  induction entries generalizing data with
  | nil =>
      rw [List.foldlM_nil]
      exact ⟨(fun _ _ inside => nomatch inside), fun _ => ⟨data, rfl⟩⟩
  | cons entry rest inductionHypothesis =>
      rw [List.foldlM_cons, List.forall_mem_cons, ← scanAux_returns kernel data entry]
      cases scanned : data.scanAux kernel entry with
      | error fault =>
          constructor
          · rintro ⟨after, returned⟩
            exact nomatch returned
          · rintro ⟨⟨after, returned⟩, -⟩
            exact nomatch returned
      | ok middle =>
          have others := inductionHypothesis middle
          constructor
          · intro returned
            exact ⟨⟨middle, rfl⟩, others.mp returned⟩
          · rintro ⟨-, inside⟩
            exact others.mpr inside

theorem scanAux_foldlM_grows {kernel : KernelStack} {entries : List AuxEntry}
    {data after : LoadData}
    (scanned : entries.foldlM (scanAux kernel) data = .ok after) :
    Grows data after (entries.map kernel.auxPoolSize).sum 0 := by
  induction entries generalizing data with
  | nil =>
      cases scanned
      exact Grows.refl _
  | cons entry rest inductionHypothesis =>
      rw [List.foldlM_cons] at scanned
      cases first : data.scanAux kernel entry with
      | error fault =>
          rw [first] at scanned
          exact nomatch scanned
      | ok middle =>
          rw [first] at scanned
          rw [List.map_cons, List.sum_cons]
          exact (scanAux_grows first).trans (inductionHypothesis scanned)

end LoadData

/-- A sequence returns when both parts do. -/
private theorem load_bind_eq_ok {α β : Type} {first : Except LoadFault α}
    {next : α → Except LoadFault β} {result : β} :
    (first >>= next) = .ok result ↔
      ∃ value, first = .ok value ∧ next value = .ok result := by
  cases first with
  | error fault =>
      constructor
      · intro never
        exact nomatch never
      · rintro ⟨value, never, -⟩
        exact nomatch never
  | ok value =>
      constructor
      · intro returned
        exact ⟨value, rfl, returned⟩
      · rintro ⟨other, same, returned⟩
        cases same
        exact returned

theorem intValue_eq_ok {value result : Nat} :
    intValue value = .ok result ↔ value < 2 ^ 31 ∧ result = value := by
  unfold intValue
  split
  next small =>
    rw [Except.ok.injEq]
    exact ⟨fun same => ⟨small, same.symm⟩, fun ⟨_, same⟩ => same.symm⟩
  next large =>
    exact ⟨(fun never => nomatch never), fun ⟨small, _⟩ => absurd small large⟩

/-- What the globals are when `extract_elf_load_data` returns. -/
structure Extracted (kernel : KernelStack) (data : LoadData) : Prop where
  argc : data.ltArgc = kernel.argv.length
  argv : data.ltArgv = kernel.argv
  envp : data.ltEnvp = kernel.envp
  auxv : data.ltAuxv = kernel.auxv
  stackSize : data.ltStackSize = UInt64.ofNat kernel.stackSize
  arraySize : data.ltArrayAreaSize = UInt64.ofNat kernel.arraySize

/-- The counts that `int` expressions hold. -/
def KernelStack.SmallCounts (kernel : KernelStack) : Prop :=
  (kernel.argv.length + 1) * 8 < 2 ^ 31 ∧ (kernel.envp.length + 1) * 8 < 2 ^ 31 ∧
    kernel.auxv.length + 1 < 2 ^ 31

/-- The globals before the loop over `lt_auxv`. -/
private def countedEnvs (kernel : KernelStack) : LoadData :=
  let started : LoadData :=
    { ltArgc := kernel.argv.length, ltArgv := kernel.argv, ltEnvp := kernel.envp,
      ltEnvc := kernel.envp.length, ltAuxv := kernel.auxv }
  let args := kernel.argv.foldl LoadData.scanArg (started.addArray 8)
  let envs := kernel.envp.foldl LoadData.scanEnv
    (args.addArray ((kernel.argv.length + 1) * 8))
  envs.addArray ((kernel.envp.length + 1) * 8)

private theorem extract_eq_ok {kernel : KernelStack} {data : LoadData} :
    extractElfLoadData kernel = .ok data ↔
      kernel.SmallCounts ∧
        ∃ auxs, kernel.auxv.foldlM (LoadData.scanAux kernel) (countedEnvs kernel) = .ok auxs ∧
          { auxs with ltAuxc := kernel.auxv.length }.addArray
            ((kernel.auxv.length + 1) * 16) = data := by
  unfold extractElfLoadData KernelStack.SmallCounts
  simp only [load_bind_eq_ok, intValue_eq_ok]
  constructor
  · rintro ⟨_, ⟨args, rfl⟩, _, ⟨envs, rfl⟩, auxs, scanned, _, ⟨count, rfl⟩, returned⟩
    cases returned
    exact ⟨⟨args, envs, count⟩, auxs, scanned, rfl⟩
  · rintro ⟨⟨args, envs, count⟩, auxs, scanned, rfl⟩
    exact ⟨_, ⟨args, rfl⟩, _, ⟨envs, rfl⟩, auxs, scanned, _, ⟨count, rfl⟩, rfl⟩

/-- `extract_elf_load_data` returns when `aux` has an element for every entry. -/
theorem extractElfLoadData_returns (kernel : KernelStack) :
    (∃ data, extractElfLoadData kernel = .ok data) ↔
      kernel.SmallCounts ∧ ∀ entry ∈ kernel.auxv, LoadData.InAux entry := by
  rw [← LoadData.scanAux_foldlM kernel kernel.auxv (countedEnvs kernel)]
  simp only [extract_eq_ok]
  constructor
  · rintro ⟨data, counts, auxs, scanned, -⟩
    exact ⟨counts, auxs, scanned⟩
  · rintro ⟨counts, auxs, scanned⟩
    exact ⟨_, counts, auxs, scanned, rfl⟩

private theorem grows_countedEnvs (kernel : KernelStack) :
    LoadData.Grows
      { ltArgc := kernel.argv.length, ltArgv := kernel.argv, ltEnvp := kernel.envp,
        ltEnvc := kernel.envp.length, ltAuxv := kernel.auxv }
      (countedEnvs kernel)
      (8 + (kernel.argv.map CString.poolSize).sum + (kernel.argv.length + 1) * 8 +
        (kernel.envp.map CString.poolSize).sum + (kernel.envp.length + 1) * 8)
      (8 + 0 + (kernel.argv.length + 1) * 8 + 0 + (kernel.envp.length + 1) * 8) := by
  apply LoadData.Grows.trans _ (LoadData.Grows.addArray _ _)
  apply LoadData.Grows.trans _ (LoadData.Grows.foldl LoadData.Grows.scanEnv _ _)
  apply LoadData.Grows.trans _ (LoadData.Grows.addArray _ _)
  apply LoadData.Grows.trans _ (LoadData.Grows.foldl LoadData.Grows.scanArg _ _)
  exact LoadData.Grows.addArray _ 8

theorem extractElfLoadData_extracted {kernel : KernelStack} {data : LoadData}
    (returned : extractElfLoadData kernel = .ok data) :
    Extracted kernel data := by
  obtain ⟨-, auxs, scanned, rfl⟩ := extract_eq_ok.mp returned
  have grows := (grows_countedEnvs kernel).trans (LoadData.scanAux_foldlM_grows scanned)
  have passed := grows.passed
  simp only [LoadData.passed, Prod.mk.injEq] at passed
  obtain ⟨argc, argv, -, envp, auxv⟩ := passed
  refine ⟨argc, argv, envp, auxv, ?stack, ?array⟩
  case stack =>
    change auxs.ltStackSize + UInt64.ofNat _ = _
    rw [grows.stack, UInt64.zero_add, ← UInt64.ofNat_add]
    congr 1
    unfold KernelStack.stackSize KernelStack.arraySize KernelStack.poolSize
    omega
  case array =>
    change auxs.ltArrayAreaSize + UInt64.ofNat _ = _
    rw [grows.array, UInt64.zero_add, ← UInt64.ofNat_add]
    rfl

/-!
## What `build_stack` writes
-/

namespace KernelStack

variable (kernel : KernelStack) (libcBase : UInt64)

/-- Everything in the order in which it is written. -/
def pieces : List Piece :=
  [wordPiece kernel.argv.length] ++ kernel.argv.map CString.piece ++ [wordPiece 0] ++
    kernel.envp.map CString.piece ++ [wordPiece 0] ++
    kernel.auxv.map (kernel.auxPiece libcBase)

theorem length_stringWords (pool : Nat) (texts : List CString) :
    (pieceWords pool (texts.map CString.piece)).length = texts.length := by
  induction texts generalizing pool with
  | nil => rfl
  | cons text rest inductionHypothesis =>
      rw [List.map_cons, pieceWords, List.length_append, inductionHypothesis, List.length_cons,
        Nat.add_comm]
      rfl

theorem length_stringBytes (texts : List CString) :
    (pieceBytes (texts.map CString.piece)).length = (texts.map CString.poolSize).sum := by
  rw [pieceBytes, List.length_flatMap, List.map_map]
  congr 2
  funext text
  exact List.length_append

theorem length_auxBytes (entry : AuxEntry) :
    (kernel.auxPiece libcBase entry).bytes.length = kernel.auxPoolSize entry := by
  unfold auxPiece auxPoolSize
  by_cases dropped : entry.aType = atSysinfoEhdr ∨ entry.aType = atHwcap
  · rw [if_pos dropped]
    rcases dropped with same | same <;> rw [same] <;> rfl
  rw [if_neg dropped]
  by_cases isBase : entry.aType = atBase
  · rw [if_pos isBase, isBase]
    rfl
  rw [if_neg isBase]
  by_cases isRandom : entry.aType = atRandom
  · rw [if_pos isRandom, isRandom]
    rfl
  rw [if_neg isRandom]
  by_cases isText : entry.aType = atPlatform ∨ entry.aType = atExecfn
  · rw [if_pos isText, if_pos isText]
    exact List.length_append
  · rw [if_neg isText, if_neg isText, if_neg isRandom]
    rfl

theorem length_auxWords_le (pool : Nat) (entries : List AuxEntry) :
    (pieceWords pool (entries.map (kernel.auxPiece libcBase))).length ≤
      2 * entries.length := by
  induction entries generalizing pool with
  | nil => exact Nat.le_refl _
  | cons entry rest inductionHypothesis =>
      rw [List.map_cons, pieceWords, List.length_append, List.length_cons]
      have others := inductionHypothesis
        (pool + (kernel.auxPiece libcBase entry).bytes.length)
      have own : ((kernel.auxPiece libcBase entry).words pool).length ≤ 2 := by
        unfold auxPiece
        split_ifs <;> simp
      omega

/-- The pool holds what the measuring pass counted. -/
theorem length_pieceBytes :
    (pieceBytes (kernel.pieces libcBase)).length = kernel.poolSize := by
  have auxs : (pieceBytes (kernel.auxv.map (kernel.auxPiece libcBase))).length =
      (kernel.auxv.map kernel.auxPoolSize).sum := by
    rw [pieceBytes, List.length_flatMap, List.map_map]
    congr 2
    funext entry
    exact length_auxBytes kernel libcBase entry
  unfold pieces poolSize
  simp only [pieceBytes_append, pieceBytes_singleton, List.length_append,
    length_stringBytes, auxs, wordPiece_bytes, List.length_nil]
  omega

/-- The pointer area has room for all words and the last `AT_NULL`. -/
theorem length_pieceWords_le (pool : Nat) :
    8 * (pieceWords pool (kernel.pieces libcBase)).length + 16 ≤ kernel.arraySize := by
  unfold pieces arraySize
  simp only [pieceWords_append, pieceWords_singleton, List.length_append,
    length_stringWords, wordPiece_words, List.length_singleton]
  have auxs := length_auxWords_le kernel libcBase
    (pool + (pieceBytes ([wordPiece kernel.argv.length] ++ kernel.argv.map CString.piece ++
      [wordPiece 0] ++ kernel.envp.map CString.piece ++ [wordPiece 0])).length) kernel.auxv
  omega

end KernelStack

/-!
## What the block decodes to
-/

/-- What the program is told of an entry. -/
def KernelStack.toldEntry (kernel : KernelStack) (libcBase : UInt64) (entry : AuxEntry) :
    Option AuxItem :=
  if entry.aType = atSysinfoEhdr ∨ entry.aType = atHwcap then
    none
  else if entry.aType = atBase then
    some ⟨entry.typeWord, .word libcBase⟩
  else if entry.aType = atRandom then
    some ⟨entry.typeWord, .random (kernel.randomAt entry.aVal)⟩
  else if entry.aType = atPlatform ∨ entry.aType = atExecfn then
    some ⟨entry.typeWord, .text (kernel.stringAt entry.aVal)⟩
  else
    some ⟨entry.typeWord, .word entry.aVal⟩

/-- What the program is told by the kernel and the runtime. -/
def KernelStack.told (kernel : KernelStack) (libcBase : UInt64) : ProcessStart where
  argv := kernel.argv
  envp := kernel.envp
  auxv := kernel.auxv.filterMap (kernel.toldEntry libcBase)

/-- The word of a type is no other type's. -/
private theorem typeWord_eq_iff {entry : AuxEntry} (code : Int32) :
    entry.typeWord = code.toInt64.toUInt64.toNat ↔ entry.aType = code := by
  unfold AuxEntry.typeWord
  rw [UInt64.toNat_inj]
  constructor
  · intro same
    have narrow := congrArg (fun word => word.toInt64.toInt32) same
    simpa using narrow
  · intro same
    rw [same]

private theorem typeWord_ne_zero (entry : AuxEntry) : entry.typeWord ≠ 0 := by
  intro zero
  exact entry.notNull ((typeWord_eq_iff 0).mp zero)

private theorem typeWord_random {entry : AuxEntry} :
    entry.typeWord = 25 ↔ entry.aType = atRandom :=
  typeWord_eq_iff atRandom

private theorem typeWord_text {entry : AuxEntry} :
    (entry.typeWord = 15 ∨ entry.typeWord = 31) ↔
      (entry.aType = atPlatform ∨ entry.aType = atExecfn) :=
  or_congr (typeWord_eq_iff atPlatform) (typeWord_eq_iff atExecfn)

/-- The two words of a random value are read behind a pointer to its bytes. -/
private theorem readsRandom {mem : ByteMem} {pool : Nat} {words : UInt64 × UInt64}
    (present : mem.BytesAt pool (ByteMem.littleEndian 8 words.1.toNat ++
      ByteMem.littleEndian 8 words.2.toNat)) :
    mem.load64 pool = words.1.toNat ∧ mem.load64 (pool + 8) = words.2.toNat := by
  obtain ⟨low, high⟩ := ByteMem.bytesAt_append.mp present
  rw [ByteMem.length_littleEndian] at high
  exact ⟨low.load64_eq (UInt64.toNat_lt _), high.load64_eq (UInt64.toNat_lt _)⟩

/-- An entry is dropped, or its two words say what the program is told. -/
private theorem auxPiece_cases (kernel : KernelStack) (libcBase : UInt64)
    (entry : AuxEntry) :
    (kernel.toldEntry libcBase entry = none ∧
        kernel.auxPiece libcBase entry = ⟨fun _ => [], []⟩) ∨
      ∃ (value : AuxValue) (raw : Nat → Nat),
        kernel.toldEntry libcBase entry = some ⟨entry.typeWord, value⟩ ∧
        (∀ pool, (kernel.auxPiece libcBase entry).words pool =
          [entry.typeWord, raw pool]) ∧
        ∀ mem pool, ByteMem.BytesAt mem pool (kernel.auxPiece libcBase entry).bytes →
          ReadsValue mem entry.typeWord (raw pool) value := by
  unfold KernelStack.toldEntry KernelStack.auxPiece
  by_cases dropped : entry.aType = atSysinfoEhdr ∨ entry.aType = atHwcap
  · rw [if_pos dropped, if_pos dropped]
    exact Or.inl ⟨rfl, rfl⟩
  rw [if_neg dropped, if_neg dropped]
  right
  by_cases isBase : entry.aType = atBase
  · simp only [if_pos isBase]
    refine ⟨_, fun _ => libcBase.toNat, rfl, fun _ => rfl, fun mem pool _ => ?_⟩
    unfold ReadsValue
    rw [if_neg (by rw [typeWord_random, isBase]; decide),
      if_neg (by rw [typeWord_text, isBase]; decide)]
    exact ⟨libcBase, rfl, rfl⟩
  simp only [if_neg isBase]
  by_cases isRandom : entry.aType = atRandom
  · simp only [if_pos isRandom]
    refine ⟨_, fun pool => pool, rfl, fun _ => rfl, fun mem pool present => ?_⟩
    unfold ReadsValue
    rw [if_pos (typeWord_random.mpr isRandom)]
    exact ⟨_, rfl, readsRandom present⟩
  simp only [if_neg isRandom]
  by_cases isText : entry.aType = atPlatform ∨ entry.aType = atExecfn
  · simp only [if_pos isText]
    refine ⟨_, fun pool => pool, rfl, fun _ => rfl, fun mem pool present => ?_⟩
    unfold ReadsValue
    rw [if_neg (mt typeWord_random.mp isRandom), if_pos (typeWord_text.mpr isText)]
    exact ⟨_, rfl, present⟩
  · simp only [if_neg isText]
    refine ⟨_, fun _ => entry.aVal.toNat, rfl, fun _ => rfl, fun mem pool _ => ?_⟩
    unfold ReadsValue
    rw [if_neg (mt typeWord_random.mp isRandom), if_neg (mt typeWord_text.mp isText)]
    exact ⟨entry.aVal, rfl, rfl⟩

/-- The words and pool bytes of strings are read as the strings. -/
private theorem readsStrings_of_pieces {mem : ByteMem} {addr pool : Nat}
    {texts : List CString} (notNull : pool ≠ 0)
    (words : mem.WordsAt addr (pieceWords pool (texts.map CString.piece)))
    (ends : mem.load64 (addr + 8 * texts.length) = 0)
    (bytes : mem.BytesAt pool (pieceBytes (texts.map CString.piece))) :
    ReadsStrings mem addr texts (addr + 8 * (texts.length + 1)) := by
  induction texts generalizing addr pool with
  | nil =>
      exact ReadsStrings.null ends
  | cons text rest inductionHypothesis =>
      obtain ⟨pointer, otherWords⟩ := ByteMem.wordsAt_cons.mp words
      obtain ⟨present, otherBytes⟩ := ByteMem.bytesAt_append.mp bytes
      rw [List.length_cons, Nat.mul_succ, Nat.add_comm _ 8, ← Nat.add_assoc] at ends
      have others := inductionHypothesis (by omega) otherWords ends otherBytes
      rw [show addr + 8 * ((text :: rest).length + 1) =
        addr + 8 + 8 * (rest.length + 1) by rw [List.length_cons]; omega]
      refine ReadsStrings.string ?_ ?_ others
      · rw [pointer]
        exact notNull
      · rw [pointer]
        exact present

/-- The words and pool bytes of entries are read as what the program is told. -/
private theorem readsAux_of_pieces {kernel : KernelStack} {libcBase : UInt64}
    {mem : ByteMem} {addr pool : Nat} {entries : List AuxEntry}
    (words : mem.WordsAt addr
      (pieceWords pool (entries.map (kernel.auxPiece libcBase))))
    (ends : mem.load64 (addr +
      8 * (pieceWords pool (entries.map (kernel.auxPiece libcBase))).length) = 0)
    (bytes : mem.BytesAt pool (pieceBytes (entries.map (kernel.auxPiece libcBase)))) :
    ReadsAux mem addr (entries.filterMap (kernel.toldEntry libcBase)) := by
  induction entries generalizing addr pool with
  | nil =>
      exact ReadsAux.null ends
  | cons entry rest inductionHypothesis =>
      rw [List.map_cons, pieceWords] at words ends
      obtain ⟨present, otherBytes⟩ := ByteMem.bytesAt_append.mp bytes
      obtain ⟨ownWords, otherWords⟩ := ByteMem.wordsAt_append.mp words
      rcases auxPiece_cases kernel libcBase entry with
        ⟨dropped, noPiece⟩ | ⟨value, raw, told, ownPiece, reads⟩
      · rw [noPiece] at ends otherWords otherBytes
        rw [List.filterMap_cons_none dropped]
        exact inductionHypothesis otherWords ends otherBytes
      · rw [List.filterMap_cons_some told]
        rw [ownPiece] at ends ownWords otherWords
        obtain ⟨type, behind⟩ := ByteMem.wordsAt_cons.mp ownWords
        have word := ByteMem.wordsAt_singleton.mp behind
        refine ReadsAux.entry type (typeWord_ne_zero entry) ?_ ?_
        · rw [word]
          exact reads mem pool present
        · apply inductionHypothesis otherWords _ otherBytes
          rw [List.length_append, Nat.mul_add, ← Nat.add_assoc] at ends
          exact ends

/-- The room that the sandbox stack has below its first word. -/
def stackRoom : Nat := stackTop - stackStart

private theorem stackTop_le : stackTop ≤ fourGB := Nat.sub_le _ _

/-- A block that fits lies in the mapped stack, at an aligned address. -/
private theorem stackPointer_mapped {data : LoadData} {size : Nat}
    (counted : data.ltStackSize.toNat = size) (fits : size ≤ stackRoom) :
    data.stackPointer stackTop % 16 = 0 ∧ stackStart ≤ data.stackPointer stackTop ∧
      data.stackPointer stackTop + size ≤ stackTop := by
  have top : stackTop = 4294967288 := rfl
  have start : stackStart = 4286578688 := rfl
  have room : stackRoom = 8388600 := rfl
  unfold LoadData.stackPointer
  rw [counted]
  omega

/-- The loops of `build_stack` write everything in order. -/
private theorem pieces_written (kernel : KernelStack) (libcBase : UInt64)
    {original : ByteMem} {start size : Nat} (arrayFits : kernel.arraySize ≤ size)
    (below : start + size ≤ fourGB) :
    Writes original start kernel.arraySize size
      (fun build =>
        kernel.auxv.foldl (Build.writeAux kernel libcBase)
          ((kernel.envp.foldl Build.writeString
            ((kernel.argv.foldl Build.writeString
              (build.writeval kernel.argv.length)).writeval 0)).writeval 0))
      (kernel.pieces libcBase) := by
  have gigabytes : fourGB < 2 ^ 64 := by decide
  have countSmall : kernel.argv.length < 2 ^ 64 := by
    unfold KernelStack.arraySize at arrayFits
    omega
  have zeroSmall : 0 < 2 ^ 64 := by decide
  have strings (texts : List CString) :
      Writes original start kernel.arraySize size
        (fun build => texts.foldl Build.writeString build) (texts.map CString.piece) :=
    Writes.foldl (writeString_writes below) texts
  have args := (writeval_writes countSmall).append (strings kernel.argv)
  have envs := (args.append (writeval_writes zeroSmall)).append (strings kernel.envp)
  exact (envs.append (writeval_writes zeroSmall)).append
    (Writes.foldl (writeAux_writes kernel libcBase below) kernel.auxv)

/-- `build_stack` writes every piece to a block of the size that was counted. -/
theorem buildStack_wrote {kernel : KernelStack} {data : LoadData} (libcBase : UInt64)
    (mem : ByteMem) (extracted : Extracted kernel data)
    (fits : kernel.stackSize ≤ stackRoom) :
    ∃ rv build, buildStack kernel data stackTop libcBase mem = .ok (rv, build) ∧
      rv % 16 = 0 ∧ stackStart ≤ rv ∧ rv + kernel.stackSize ≤ stackTop ∧
      data.ltStackSize.toNat = kernel.stackSize ∧
      data.ltArrayAreaSize.toNat = kernel.arraySize ∧
      build.Wrote mem rv kernel.arraySize kernel.stackSize
        (pieceWords (rv + kernel.arraySize) (kernel.pieces libcBase))
        (pieceBytes (kernel.pieces libcBase)) := by
  have room : stackRoom < UInt64.size := by decide
  have arrayFits : kernel.arraySize ≤ kernel.stackSize := Nat.le_add_right _ _
  have stackSize : data.ltStackSize.toNat = kernel.stackSize := by
    rw [extracted.stackSize]
    exact UInt64.toNat_ofNat_of_lt' (by omega)
  have arraySize : data.ltArrayAreaSize.toNat = kernel.arraySize := by
    rw [extracted.arraySize]
    exact UInt64.toNat_ofNat_of_lt' (by omega)
  obtain ⟨aligned, mapped, below⟩ := stackPointer_mapped stackSize fits
  have written := pieces_written kernel libcBase arrayFits
    (Nat.le_trans below stackTop_le) _ _ _ (Build.wrote_fresh mem (data.stackPointer stackTop) arrayFits)
    (by
      rw [List.length_nil, Nat.zero_add]
      exact Nat.le_trans (Nat.le_add_right _ 16) (kernel.length_pieceWords_le libcBase _))
    (by
      rw [List.length_nil, kernel.length_pieceBytes libcBase, Nat.add_zero]
      exact Nat.le_refl _)
  refine ⟨data.stackPointer stackTop, _, ?_, aligned, mapped, below, stackSize, arraySize,
    written⟩
  unfold buildStack
  rw [stackSize, if_pos ⟨mapped, Nat.le_trans below stackTop_le⟩, arraySize, extracted.argc,
    extracted.argv, extracted.envp, extracted.auxv]

/-- The block after `build_stack`, as the program and the runtime need it. -/
structure StackRight (kernel : KernelStack) (libcBase : UInt64) (mem : ByteMem)
    (data : LoadData) (rv : Nat) (build : Build) : Prop where
  aligned : rv % 16 = 0
  below : rv + data.ltStackSize.toNat ≤ stackTop
  /-- The last entry, of type `AT_NULL`, ends before the pool starts. -/
  pointerArea : build.top + 16 ≤ rv + data.ltArrayAreaSize.toNat
  pool : build.pool ≤ rv + data.ltStackSize.toNat
  outside : ∀ query, query < rv ∨ rv + data.ltStackSize.toNat ≤ query →
    build.mem query = mem query
  decodes : ∀ start, Decodes build.mem rv start ↔ start = kernel.told libcBase

/--
The runtime measures what the kernel passes within `aux`, and builds the stack
that says it.
-/
def StackDecodes (kernel : KernelStack) (libcBase : UInt64) (mem : ByteMem) : Prop :=
  ∃ data rv build, extractElfLoadData kernel = .ok data ∧
    buildStack kernel data stackTop libcBase mem = .ok (rv, build) ∧
    StackRight kernel libcBase mem data rv build

/-- Words and pool bytes of all pieces decode to what the program is told. -/
private theorem decodes_of_wrote {kernel : KernelStack} {libcBase : UInt64}
    {original : ByteMem} {rv size : Nat} {build : Build}
    (wrote : build.Wrote original rv kernel.arraySize size
      (pieceWords (rv + kernel.arraySize) (kernel.pieces libcBase))
      (pieceBytes (kernel.pieces libcBase))) :
    Decodes build.mem rv (kernel.told libcBase) := by
  have room := kernel.length_pieceWords_le libcBase (rv + kernel.arraySize)
  have last := wrote.filling.next_word_zero (by omega)
  have words := wrote.filling.placedWords
  have bytes := wrote.filling.placedBytes
  unfold KernelStack.pieces at words bytes last
  simp only [pieceWords_append, pieceWords_singleton, pieceBytes_append,
    pieceBytes_singleton, wordPiece_words, wordPiece_bytes, ByteMem.wordsAt_append,
    ByteMem.bytesAt_append, ByteMem.wordsAt_singleton, List.length_append,
    List.length_singleton, List.length_nil, KernelStack.length_stringWords]
    at words bytes last
  obtain ⟨⟨⟨⟨⟨argc, args⟩, argEnd⟩, envs⟩, envEnd⟩, auxs⟩ := words
  obtain ⟨⟨⟨⟨⟨-, argBytes⟩, -⟩, envBytes⟩, -⟩, auxBytes⟩ := bytes
  have envAt (count : Nat) :
      rv + 8 * 1 + 8 * (count + 1) = rv + 8 * (1 + count + 1) := by omega
  have auxAt (first second : Nat) :
      rv + 8 * (1 + first + 1) + 8 * (second + 1) =
        rv + 8 * (1 + first + 1 + second + 1) := by omega
  rw [Nat.mul_add 8 1, ← Nat.add_assoc] at argEnd
  rw [Nat.mul_add 8 (1 + kernel.argv.length + 1), ← Nat.add_assoc] at envEnd
  rw [Nat.mul_add 8 (1 + kernel.argv.length + 1 + kernel.envp.length + 1),
    ← Nat.add_assoc] at last
  have argsRead := readsStrings_of_pieces (by omega) args argEnd argBytes
  have envsRead := readsStrings_of_pieces (by omega) envs envEnd envBytes
  rw [envAt] at argsRead
  rw [auxAt] at envsRead
  exact ⟨argc, _, _, argsRead, envsRead, readsAux_of_pieces auxs last auxBytes⟩

/-- The pool pointer moves by what the measuring pass counts, room or not. -/
private theorem pool_writeAux (kernel : KernelStack) (libcBase : UInt64) (build : Build)
    (entry : AuxEntry) :
    (build.writeAux kernel libcBase entry).pool = build.pool + kernel.auxPoolSize entry := by
  rw [← kernel.length_auxBytes libcBase entry]
  unfold Build.writeAux KernelStack.auxPiece
  split_ifs
  · rfl
  · rfl
  · rfl
  · rw [List.length_append]
    rfl
  · rfl

private theorem pool_foldl {α : Type} {turn : Build → α → Build} {cost : α → Nat}
    (turns : ∀ build item, (turn build item).pool = build.pool + cost item)
    (items : List α) (build : Build) :
    (items.foldl turn build).pool = build.pool + (items.map cost).sum := by
  induction items generalizing build with
  | nil => rfl
  | cons item rest inductionHypothesis =>
      rw [List.foldl_cons, inductionHypothesis, turns, List.map_cons, List.sum_cons,
        Nat.add_assoc]

/-- Where the pool ends, whatever the measuring pass found. -/
private theorem buildStack_pool {kernel : KernelStack} {data : LoadData}
    {libcBase : UInt64} {mem : ByteMem} {rv : Nat} {build : Build}
    (extracted : Extracted kernel data)
    (built : buildStack kernel data stackTop libcBase mem = .ok (rv, build)) :
    stackStart ≤ rv ∧
      build.pool = rv + data.ltArrayAreaSize.toNat + kernel.poolSize := by
  unfold buildStack at built
  dsimp only at built
  split at built
  next mapped =>
    rw [Except.ok.injEq, Prod.mk.injEq] at built
    obtain ⟨rfl, rfl⟩ := built
    have strings (texts : List CString) (start : Build) :
        (texts.foldl Build.writeString start).pool =
          start.pool + (texts.map CString.poolSize).sum :=
      pool_foldl (fun _ _ => rfl) texts start
    refine ⟨mapped.1, ?_⟩
    rw [pool_foldl (pool_writeAux kernel libcBase), extracted.auxv, extracted.argv,
      extracted.envp, Build.writeval_pool, strings, Build.writeval_pool, strings,
      Build.writeval_pool]
    unfold KernelStack.poolSize
    dsimp only
    omega
  next =>
    exact nomatch built

/-- A program `a` with an `AT_MINSIGSTKSZ` entry, as newer kernels pass it. -/
def minsigstkszStack : KernelStack where
  argv := [⟨[97], by decide⟩]
  envp := []
  auxv := [⟨6, 4096, by decide⟩, ⟨51, 2048, by decide⟩]
  stringAt _ := ⟨[], by decide⟩
  randomAt _ := (0, 0)

end Mcfi
