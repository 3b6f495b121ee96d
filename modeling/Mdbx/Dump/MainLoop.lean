import Mdbx.Dump.Model

/-!
# Dump.MainLoop — how `mdbx_load` goes through the tables of a dump

The calls of the library are given: each takes the state of the environment, the transaction and the
cursor to the next one, or fails.  Signals and failures of `realloc` are left out, and so is `-T`, which
reads no headers.
-/

namespace Mdbx.Dump

open Text

/-! ## 1. The stream behind a line that is no item -/

def readMoreStop : Nat → Nat → Bytes → Bytes → Nat × Bytes
  | 0, len, _, s => (len, s)
  | fuel + 1, len, text, s =>
    if text.getLast? = some newline then (len, s)
    else (fgets (int32 (len + 1)) s).elim (len, s) fun (piece, rest) =>
      readMoreStop fuel (2 * len) (text ++ cstr piece) rest

/-- The size of the buffer and the stream when `readline` has come to the end of the data. -/
def readlineStop (len : Nat) : Bytes → Nat × Bytes
  | [] => (len, [])
  | c :: s =>
    if c ≠ space then (fgets (int32 len) s).elim (len, s) fun (_, rest) => (len, rest)
    else match s with
      | [] => (len, [])
      | c :: s => (fgets (int32 (len - 1)) s).elim (len, s) fun (piece, rest) =>
        readMoreStop 64 len (cstr (c :: piece)) rest

/-! ## 2. The record loop -/

def nooverwrite : UInt32 := 0x10
def nodupdata : UInt32 := 0x20
def append : UInt32 := 0x20000
def appenddup : UInt32 := 0x40000

/-- The options of the command line. -/
structure Options where
  rescue : Bool
  purge : Bool
  batchItems : Nat
  -- in bytes; 0 is no limit
  dirtyLimit : Nat

inductive Put (σ : Type) where
  | success (lib : σ)
  | keyExist (lib : σ)
  | badValsize (lib : σ)
  | failed

structure TxnInfo where
  spaceDirty : Nat
  spaceLeftover : Nat

/-- The calls of the library; none when a call fails. -/
structure Api (σ : Type) where
  envOpen : Header → σ → Option σ
  maxvalsize : σ → Nat
  txnBegin : σ → Option σ
  canaryPut : Header → σ → Option σ
  dbiOpen : Option Bytes → UInt32 → UInt32 → σ → Option σ
  dbiSequence : σ → Option UInt64
  addSequence : UInt64 → σ → Option σ
  drop : σ → Option σ
  cursorOpen : σ → Option σ
  cursorPut : UInt32 → σ → Record → Put σ
  txnInfo : σ → Option TxnInfo
  txnCheckpoint : σ → Option σ
  cursorBind : σ → Option σ
  -- of the transaction, and the table is closed
  commit : σ → Option σ

/-- The record loop: the library, the buffers, the key and the value before, the records that were
put since the last checkpoint, and the stream. -/
structure Loop (σ : Type) where
  lib : σ
  klen : Nat
  dlen : Nat
  last : Record
  count : Nat
  input : Bytes
  deriving DecidableEq

/-- A record that was read, the buffers then and the stream behind it. -/
structure Pair where
  klen : Nat
  dlen : Nat
  record : Record
  rest : Bytes

inductive Next where
  | ended (klen : Nat) (rest : Bytes)
  | failed
  | pair (e : Pair)

def readRecord (plain : Bool) (klen dlen : Nat) (last : Record) (s : Bytes) : Next :=
  match readline plain klen s with
  | .failed => .failed
  | .eof => .ended (readlineStop klen s).1 (readlineStop klen s).2
  | .item k klen' s' => match readline plain dlen s' with
    | .failed => .failed
    | .eof => .failed
    | .item d dlen' rest => .pair ⟨klen', dlen', (k.getD last.1, d.getD last.2), rest⟩

section

variable {σ : Type} (api : Api σ) (o : Options)

/-- `42 * MEGABYTE` -/
def leftoverLimit : Nat := 42 * 2 ^ 20

/-- The checkpoint after a record, when it is due. -/
def checkpoint (count : Nat) (lib : σ) : Option (Nat × σ) :=
  let batch : Bool := o.batchItems ≠ 0 ∧ o.batchItems ≤ count
  let due : Option Bool :=
    if ¬batch ∧ (o.dirtyLimit ≠ 0 ∨ count % 256 = 0) then
      (api.txnInfo lib).map fun i =>
        (o.dirtyLimit ≠ 0 ∧ o.dirtyLimit ≤ i.spaceDirty) ∨ i.spaceLeftover < leftoverLimit
    else some batch
  due.bind fun due =>
    if due then
      (api.txnCheckpoint lib).bind fun lib => (api.cursorBind lib).map fun lib => (0, lib)
    else some (count, lib)

/-- A pass through the body of the loop. -/
inductive Turn (σ : Type) where
  | ended (l : Loop σ)
  | failed
  -- `continue` behind an error that is skipped
  | skipped (l : Loop σ)
  | stored (l : Loop σ)

def putRecord (putflags : UInt32) (l : Loop σ) (e : Pair) : Turn σ :=
  let l := { l with klen := e.klen, dlen := e.dlen, last := e.record, input := e.rest }
  match api.cursorPut putflags l.lib e.record with
  | .failed => .failed
  | .keyExist lib => if putflags ≠ 0 then .skipped { l with lib := lib } else .failed
  | .badValsize lib => if o.rescue then .skipped { l with lib := lib } else .failed
  | .success lib => match checkpoint api o (l.count + 1) lib with
    | none => .failed
    | some (count, lib) => .stored { l with lib := lib, count := count }

def turn (plain : Bool) (putflags : UInt32) (l : Loop σ) : Turn σ :=
  match readRecord plain l.klen l.dlen l.last l.input with
  | .ended klen rest => .ended { l with klen := klen, input := rest }
  | .failed => .failed
  | .pair e => putRecord api o putflags l e

/-- `while (err == MDBX_SUCCESS)`: a skipped record leaves its error in `err`. -/
def recordLoop (plain : Bool) (putflags : UInt32) : Nat → Loop σ → Option (Loop σ)
  | 0, _ => none
  | fuel + 1, l => match turn api o plain putflags l with
    | .ended l' => some l'
    | .failed => none
    | .skipped l' => some l'
    | .stored l' => recordLoop plain putflags fuel l'

/-! ## 3. The tables -/

/-- `readhdr`, with the end of the stream told from an exit. -/
inductive Heading where
  | found (h : Header) (rest : Bytes)
  | eof
  | exit

def headLines (len : Nat) : Nat → Header → Bytes → Heading
  | 0, _, _ => .eof
  | fuel + 1, h, s => (fgets (int32 len) s).elim .eof fun (line, rest) =>
    match readItem items (cstr line) h with
    | .next h' => headLines len fuel h' rest
    | .exit => .exit
    | .done h' => .found h' rest

def readHeading (len : Nat) (h : Header) (s : Bytes) : Heading :=
  headLines len (s.length + 1) { h with subname := none, dbiFlags := 0, sequence := 0 } s

/-- Behind a header. -/
structure Main (σ : Type) where
  lib : σ
  header : Header
  putflags : UInt32
  klen : Nat
  dlen : Nat
  input : Bytes

/-- `MDBX_APPENDDUP` goes with `MDBX_APPEND`. -/
def tablePutflags (putflags dbiFlags : UInt32) : UInt32 :=
  if putflags &&& append ≠ 0 then
    if dupsort dbiFlags then putflags ||| appenddup else putflags &&& ~~~appenddup
  else putflags

def hasCanary (h : Header) : Bool := (h.canaryV ||| h.canaryX ||| h.canaryY ||| h.canaryZ) ≠ 0

/-- Up to `mdbx_cursor_open`. -/
def openTable (m : Main σ) : Option σ :=
  let h := m.header
  (api.txnBegin m.lib).bind fun lib =>
  (if h.global ∧ hasCanary h then api.canaryPut h lib else some lib).bind fun lib =>
  (api.dbiOpen h.subname h.dbiFlags m.putflags lib).bind fun lib =>
  (api.dbiSequence lib).bind fun present =>
  if h.sequence < present then none
  else
    (if present < h.sequence then api.addSequence (h.sequence - present) lib else some lib).bind
      fun lib => (if o.purge then api.drop lib else some lib).bind api.cursorOpen

def Main.loop (m : Main σ) (lib : σ) : Loop σ where
  lib := lib
  klen := m.klen
  dlen := m.dlen
  last := ([], [])
  count := 0
  input := m.input

inductive Outcome (σ : Type) where
  | again (m : Main σ)
  | success (lib : σ)
  | failure

/-- From `mdbx_cursor_close` on. -/
def closeTable (m : Main σ) (putflags : UInt32) (l : Loop σ) : Outcome σ :=
  match api.commit l.lib with
  | none => .failure
  | some lib => match readHeading l.dlen { m.header with global := false } l.input with
    | .exit => .failure
    | .eof => .success lib
    | .found h rest => .again ⟨lib, h, putflags, l.klen, l.dlen, rest⟩

/-- A pass through the loop over the tables. -/
def loadTable (m : Main σ) : Outcome σ :=
  match openTable api o m with
  | none => .failure
  | some lib =>
    let putflags := tablePutflags m.putflags m.header.dbiFlags
    match recordLoop api o m.header.plaintext putflags (m.input.length + 1) (m.loop lib) with
    | none => .failure
    | some l => closeTable api m putflags l

def loadTables : Nat → Main σ → Option σ
  | 0, _ => none
  | fuel + 1, m => match loadTable api o m with
    | .again m' => loadTables fuel m'
    | .success lib => some lib
    | .failure => none

/-- The first header and the environment. -/
def loadStart (putflags : UInt32) (h : Header) (lib : σ) (s : Bytes) : Option (Main σ) :=
  match readHeading dbufLen { h with global := true } s with
  | .exit => none
  | .eof => none
  | .found h' rest => (api.envOpen h' lib).map fun lib =>
    ⟨lib, h', putflags, api.maxvalsize lib + 1, dbufLen, rest⟩

/-- `mdbx_load` -/
def mdbxLoad (putflags : UInt32) (h : Header) (lib : σ) (s : Bytes) : Option σ :=
  (loadStart api putflags h lib s).bind (loadTables api o (s.length + 1))

end

end Mdbx.Dump
