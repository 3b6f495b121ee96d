import Mdbx.Lib.Text

/-!
# Dump.Model — the text that `dump_tbl` writes and how `readhdr` and `readline` take it back

A dump is a header of `item=value` lines and a line for every key and value, each behind a space.
`int` arithmetic wraps around.
-/

namespace Mdbx.Dump

open Text

def ascii (s : String) : Bytes := s.toList.map fun c => UInt8.ofNat c.toNat

def space : UInt8 := 32
def backslash : UInt8 := 92
def equals : UInt8 := 61

def isprint (c : UInt8) : Bool := 32 ≤ c && c ≤ 126

def isxdigit (c : UInt8) : Bool :=
  (48 ≤ c && c ≤ 57) || (65 ≤ c && c ≤ 70) || (97 ≤ c && c ≤ 102)

/-! ## 1. Tables -/

def dbReversekey : UInt32 := 0x02
def dbDupsort : UInt32 := 0x04
def dbIntegerkey : UInt32 := 0x08
def dbDupfixed : UInt32 := 0x10
def dbIntegerdup : UInt32 := 0x20
def dbReversedup : UInt32 := 0x40

def dupsort (flags : UInt32) : Bool := flags &&& dbDupsort ≠ 0

def checkTableFlags (flags : UInt32) : Bool :=
  [dbDupsort, dbDupsort ||| dbReversedup, dbDupsort ||| dbDupfixed,
    dbDupsort ||| dbDupfixed ||| dbReversedup, dbDupsort ||| dbDupfixed ||| dbIntegerdup,
    dbDupsort ||| dbDupfixed ||| dbIntegerdup ||| dbReversedup, 0].contains
      (flags &&& ~~~(dbReversekey ||| dbIntegerkey))
  && flags &&& (dbReversekey ||| dbIntegerkey) ≠ dbReversekey ||| dbIntegerkey

abbrev Record := Bytes × Bytes

/-- The environment a table is dumped from and loaded into: its limits, the order of its tables by
their flags, and which pairs `mdbx_cursor_put` does not refuse. -/
structure Env where
  keyMax : Nat
  maxvalsize : Nat
  keyCmp : UInt32 → Bytes → Bytes → Ordering
  dataCmp : UInt32 → Bytes → Bytes → Ordering
  accepts : UInt32 → Record → Bool
  -- the line of any key and the line that ends the data fit the buffer of the keys
  keys_fit : 3 * keyMax + 9 ≤ maxvalsize
  maxvalsize_lt : maxvalsize + 1 < 2 ^ 31
  key_oriented : ∀ flags a b, keyCmp flags a b = (keyCmp flags b a).swap
  data_oriented : ∀ flags a b, dataCmp flags a b = (dataCmp flags b a).swap

def Env.recordCmp (env : Env) (flags : UInt32) (a b : Record) : Ordering :=
  (env.keyCmp flags a.1 b.1).then
    (if dupsort flags then env.dataCmp flags a.2 b.2 else .eq)

/-- `mdbx_cursor_put` with `MDBX_UPSERT`: a new pair goes to its place in the order, without
duplicates the value of a present key is replaced. -/
def Env.cursorPut (env : Env) (flags : UInt32) (r : Record) : List Record → List Record
  | [] => [r]
  | x :: xs => match env.recordCmp flags r x with
    | .lt => r :: x :: xs
    | .eq => (if dupsort flags then x else (x.1, r.2)) :: xs
    | .gt => x :: env.cursorPut flags r xs

/-- A key with its first value and the duplicates behind it. -/
structure Item where
  key : Bytes
  value : Bytes
  dups : List Bytes

def Item.records (i : Item) : List Record := (i.value :: i.dups).map fun v => (i.key, v)

/-- A table of the environment. -/
structure Table (env : Env) where
  name : Option Bytes
  flags : UInt32
  sequence : UInt64
  -- in the order of the cursor
  items : List Item
  name_nonzero : ∀ s ∈ name, (0 : UInt8) ∉ s
  checked : checkTableFlags flags = true
  single : dupsort flags = false → ∀ i ∈ items, i.dups = []
  ordered : (items.flatMap Item.records).Pairwise fun a b => env.recordCmp flags a b = .lt
  keys_le : ∀ i ∈ items, i.key.length ≤ env.keyMax
  accepted : ∀ r ∈ items.flatMap Item.records, env.accepts flags r = true

def Table.records {env : Env} (t : Table env) : List Record := t.items.flatMap Item.records

/-! ## 2. Dump -/

/-- `mode` of `mdbx_dump`. -/
structure Mode where
  print : Bool
  global : Bool
  concise : Bool

/-- What the header tells about the environment. -/
structure Info where
  lower : UInt64
  upper : UInt64
  shrink : UInt64
  grow : UInt64
  canaryV : UInt64
  canaryX : UInt64
  canaryY : UInt64
  canaryZ : UInt64
  psize : UInt32

def hexDigit (d : UInt8) : UInt8 := if d < 10 then 48 + d else 87 + d

def dumpByte (print : Bool) (c : UInt8) : Bytes :=
  if print && isprint c && c ≠ backslash then [c]
  else (if print then [backslash] else []) ++ [hexDigit (c >>> 4), hexDigit (c &&& 15)]

def encode (print : Bool) (v : Bytes) : Bytes := v.flatMap (dumpByte print)

def dumpval (print : Bool) (v : Bytes) : Bytes := space :: (encode print v ++ [newline])

def headerLine (item value : Bytes) : Bytes := item ++ equals :: (value ++ [newline])

def headerNum (item : Bytes) (n : Nat) : Bytes := headerLine item (showNat n)

def geometryFormat : List Bytes := [ascii "l", ascii ",u", ascii ",s", ascii ",g"]

def canaryFormat : List Bytes := [ascii "v", ascii ",x", ascii ",y", ascii ",z"]

def dumpGlobal (info : Info) : Bytes :=
  (if info.upper ≠ info.lower then
    headerLine (ascii "geometry") (printf geometryFormat
      [info.lower.toNat, info.upper.toNat, info.shrink.toNat, info.grow.toNat]) else []) ++
  headerNum (ascii "mapsize") info.upper.toNat ++
  (if info.canaryV ≠ 0 then
    headerLine (ascii "canary") (printf canaryFormat
      [info.canaryV.toNat, info.canaryX.toNat, info.canaryY.toNat, info.canaryZ.toNat]) else [])

/-- `dbflags` of `mdbx_dump`. -/
def dumpFlagNames : List (UInt32 × Bytes) :=
  [(dbReversekey, ascii "reversekey"), (dbDupsort, ascii "dupsort"),
    (dbIntegerkey, ascii "integerkey"), (dbDupfixed, ascii "dupfix"),
    (dbIntegerdup, ascii "integerdup"), (dbReversedup, ascii "reversedup")]

def anyDup (flags : UInt32) : Bool :=
  flags &&& (dbDupsort ||| dbDupfixed ||| dbIntegerdup ||| dbReversedup) ≠ 0

def dumpFlags (flags : UInt32) : Bytes :=
  headerNum (ascii "duplicates") (if anyDup flags then 1 else 0) ++
  dumpFlagNames.flatMap fun (bit, name) =>
    if flags &&& bit ≠ 0 then headerNum name 1 else []

def dumpName : Option Bytes → Bytes
  | none => []
  | some name => headerLine (ascii "database") name

/-- The header in front of the line of the name. -/
def dumpHead (mode : Mode) (info : Info) : Bytes :=
  headerNum (ascii "VERSION") 3 ++
  (if mode.global then dumpGlobal info else []) ++
  headerLine (ascii "format") (if mode.print then ascii "print" else ascii "bytevalue")

/-- The header behind it. -/
def dumpTail (info : Info) (flags : UInt32) (sequence : UInt64) : Bytes :=
  headerLine (ascii "type") (ascii "btree") ++
  headerNum (ascii "db_pagesize") info.psize.toNat ++
  dumpFlags flags ++
  (if sequence ≠ 0 then headerNum (ascii "sequence") sequence.toNat else []) ++
  headerLine (ascii "HEADER") (ascii "END")

def dumpItem (mode : Mode) (flags : UInt32) (i : Item) : Bytes :=
  if dupsort flags && mode.concise then
    dumpval mode.print i.key ++ dumpval mode.print i.value ++
      i.dups.flatMap fun v => space :: dumpval mode.print v
  else i.records.flatMap fun r => dumpval mode.print r.1 ++ dumpval mode.print r.2

def dataEnd : Bytes := headerLine (ascii "DATA") (ascii "END")

def dumpTbl {env : Env} (mode : Mode) (info : Info) (t : Table env) : Bytes :=
  dumpHead mode info ++ dumpName t.name ++ dumpTail info t.flags t.sequence ++
    t.items.flatMap (dumpItem mode t.flags) ++ dataEnd

/-! ## 3. The header read back -/

/-- What `readhdr` sets. -/
structure Header where
  subname : Option Bytes
  dbiFlags : UInt32
  sequence : UInt64
  plaintext : Bool
  global : Bool
  pagesize : UInt32
  mapsize : UInt64
  maxreaders : UInt64
  geoLower : UInt64
  geoCurrent : UInt64
  geoUpper : UInt64
  geoShrink : UInt64
  geoGrow : UInt64
  canaryV : UInt64
  canaryX : UInt64
  canaryY : UInt64
  canaryZ : UInt64

inductive ValStr where
  | absent
  | bad
  | str (s : Bytes)

def valstr (line item : Bytes) : ValStr :=
  if item.isPrefixOf line then
    match line.drop item.length with
    | [] => .bad
    | c :: s =>
      if c = equals then .str (s.takeWhile (· ≠ newline))
      -- `char` is signed
      else if 32 < c ∧ c < 128 then .absent
      else .bad
  else .absent

/-- The value of an item, unless something stands behind the number. -/
def valnum (s : Bytes) : Option UInt64 :=
  match strtoull s with
  | some (n, rest) => if rest = [] then some (UInt64.ofNat n) else none
  | none => if s = [] then some 0 else none

inductive Step where
  | next (h : Header)
  | exit
  | done (h : Header)

abbrev Handler := Bytes → Header → Step

def number (f : UInt64 → Header → Step) : Handler := fun s h =>
  match valnum s with
  | some n => f n h
  | none => .exit

def onVersion : Handler := number fun n h => if n = 3 then .next h else .exit

def onPagesize : Handler := number fun n h =>
  if h.global = false ∧ h.pagesize.toNat ≠ n.toNat then .next h
  else if n < 256 ∨ 65536 < n then .next h
  else .next { h with pagesize := n.toUInt32 }

def onFormat : Handler := fun s h =>
  if s = ascii "print" then .next { h with plaintext := true }
  else if s = ascii "bytevalue" then .next { h with plaintext := false }
  else .exit

def onDatabase : Handler := fun s h =>
  if s = [] then .next h else .next { h with subname := some s }

def onType : Handler := fun s h => if s = ascii "btree" then .next h else .exit

/-- `mapaddr` and `txnid`: the number is checked and not used. -/
def onIgnored : Handler := number fun _ h => .next h

def onMapsize : Handler := number fun n h =>
  if h.global = false then .next h
  else if n < 768 ∨ 2 ^ 47 < n then .next h
  else .next { h with mapsize := n }

def onMaxreaders : Handler := number fun n h =>
  if h.global = false then .next h
  else if n < 1 ∨ 32767 < n then .next h
  else .next { h with maxreaders := n }

def onSequence : Handler := number fun n h => .next { h with sequence := n }

def geometryFormat5 : List Bytes :=
  [ascii "l", ascii ",c", ascii ",u", ascii ",s", ascii ",g"]

def onGeometry : Handler := fun s h =>
  if h.global = false then .next h
  else match sscanf geometryFormat s with
    | [l, u, s, g] => .next { h with
        geoLower := UInt64.ofNat l, geoUpper := UInt64.ofNat u, geoShrink := UInt64.ofNat s,
        geoGrow := UInt64.ofNat g, geoCurrent := UInt64.ofNat (2 ^ 64 - 1) }
    | _ => match sscanf geometryFormat5 s with
      | [l, c, u, s, g] => .next { h with
          geoLower := UInt64.ofNat l, geoCurrent := UInt64.ofNat c, geoUpper := UInt64.ofNat u,
          geoShrink := UInt64.ofNat s, geoGrow := UInt64.ofNat g }
      | _ => .exit

def onCanary : Handler := fun s h =>
  if h.global = false then .next h
  else match sscanf canaryFormat s with
    | [v, x, y, z] => .next { h with
        canaryV := UInt64.ofNat v, canaryX := UInt64.ofNat x, canaryY := UInt64.ofNat y,
        canaryZ := UInt64.ofNat z }
    | _ => .exit

/-- `valbool` and the bit it sets or clears. -/
def onFlag (bit : UInt32) : Handler := number fun n h =>
  if 1 < n then .exit
  else if n ≠ 0 then .next { h with dbiFlags := h.dbiFlags ||| bit }
  else .next { h with dbiFlags := h.dbiFlags &&& ~~~bit }

def onHeader : Handler := fun s h => if s = ascii "END" then .done h else .next h

/-- The items `readhdr` knows, in the order it tries them. -/
def items : List (Bytes × Handler) :=
  [(ascii "VERSION", onVersion), (ascii "db_pagesize", onPagesize), (ascii "format", onFormat),
    (ascii "database", onDatabase), (ascii "type", onType), (ascii "mapaddr", onIgnored),
    (ascii "mapsize", onMapsize), (ascii "maxreaders", onMaxreaders), (ascii "txnid", onIgnored),
    (ascii "sequence", onSequence), (ascii "geometry", onGeometry), (ascii "canary", onCanary),
    (ascii "reversekey", onFlag dbReversekey), (ascii "duplicates", onFlag dbDupsort),
    (ascii "dupsort", onFlag dbDupsort), (ascii "integerkey", onFlag dbIntegerkey),
    (ascii "dupfix", onFlag dbDupfixed), (ascii "integerdup", onFlag dbIntegerdup),
    (ascii "reversedup", onFlag dbReversedup), (ascii "HEADER", onHeader)]

/-- An unknown keyword is ignored. -/
def readItem : List (Bytes × Handler) → Bytes → Header → Step
  | [], _, h => .next h
  | (item, f) :: rest, line, h => match valstr line item with
    | .absent => readItem rest line h
    | .bad => .exit
    | .str s => f s h

def int32 (n : Int) : Int := Int.bmod n (2 ^ 32)

/-- The lines of the header; every one takes at least a byte of the stream. -/
def readLines (len : Nat) : Nat → Header → Bytes → Option (Header × Bytes)
  | 0, _, _ => none
  | fuel + 1, h, s => (fgets (int32 len) s).bind fun (line, rest) =>
    match readItem items (cstr line) h with
    | .next h' => readLines len fuel h' rest
    | .exit => none
    | .done h' => some (h', rest)

def readhdr (len : Nat) (h : Header) (s : Bytes) : Option (Header × Bytes) :=
  readLines len (s.length + 1) { h with subname := none, dbiFlags := 0, sequence := 0 } s

/-! ## 4. The records read back -/

def unhexDigit (c : UInt8) : UInt8 :=
  let h := (c ||| 0x20) - 97
  h + 10 + if 128 ≤ h then 39 else 0

def unhex (hi lo : UInt8) : UInt8 := unhexDigit hi <<< 4 ||| unhexDigit lo

def decodePlain : Bytes → Option Bytes
  | [] => some []
  | c :: s =>
    if c = backslash then
      match s with
      | [] => none
      | [a] => if a = backslash then some [backslash] else none
      | a :: b :: r =>
        if a = backslash then (decodePlain (b :: r)).map (backslash :: ·)
        else if isxdigit a && isxdigit b then (decodePlain r).map (unhex a b :: ·)
        else none
    else (decodePlain s).map (c :: ·)

def decodeHex : Bytes → Option Bytes
  | [] => some []
  | [_] => none
  | a :: b :: r =>
    if isxdigit a && isxdigit b then (decodeHex r).map (unhex a b :: ·) else none

def decode (plain : Bool) (s : Bytes) : Option Bytes :=
  if plain then decodePlain s else decodeHex s

/-- What `readline` comes back with; `none` is the value that was there before. -/
inductive Line where
  | item (v : Option Bytes) (len : Nat) (rest : Bytes)
  | eof
  | failed

/-- More of a line that did not fit into the buffer; the size passes `INT_MAX` before fuel runs
out. -/
def readMore : Nat → Nat → Bytes → Bytes → Option (Bytes × Nat × Bytes)
  | 0, _, _, _ => none
  | fuel + 1, len, text, s =>
    if text.getLast? = some newline then some (text, len, s)
    else (fgets (int32 (len + 1)) s).bind fun (piece, rest) =>
      readMore fuel (2 * len) (text ++ cstr piece) rest

/-- A line that could not be read counts as the end of the input. -/
def decoded (plain : Bool) : Option (Bytes × Nat × Bytes) → Line
  | none => .eof
  | some (text, len, rest) => match decode plain text.dropLast with
    | none => .failed
    | some v => .item (some v) len rest

/-- The rest of a line whose first byte is `c`. -/
def readRest (plain : Bool) (len : Nat) (c : UInt8) (s : Bytes) : Line :=
  if c = newline then decoded plain (readMore 64 len [c] s)
  else decoded plain ((fgets (int32 (len - 1)) s).bind fun (piece, rest) =>
    readMore 64 len (cstr (c :: piece)) rest)

/-- A line without a space in front ends the data. -/
def readEnd (c : UInt8) : Option (Bytes × Bytes) → Line
  | none => .failed
  | some (line, _) => if c = 68 ∧ (ascii "ATA=END").isPrefixOf line then .eof else .failed

/-- A second space means the same as before and stays in the stream. -/
def readValue (plain : Bool) (len : Nat) : Bytes → Line
  | [] => .eof
  | c :: s => if c = space then .item none len (c :: s) else readRest plain len c s

def readline (plain : Bool) (len : Nat) : Bytes → Line
  | [] => .eof
  | c :: s => if c ≠ space then readEnd c (fgets (int32 len) s) else readValue plain len s

/-- Pairs until the end of the data; the buffers keep the key and the value of the last pair. -/
def readPairs (env : Env) (h : Header) : Nat → Nat → Nat → Record → List Record → Bytes →
    Option (List Record)
  | 0, _, _, _, _, _ => none
  | fuel + 1, klen, dlen, last, table, s => match readline h.plaintext klen s with
    | .failed => none
    | .eof => some table
    | .item k klen' s' => match readline h.plaintext dlen s' with
      | .failed => none
      | .eof => none
      | .item d dlen' rest =>
        if env.accepts h.dbiFlags (k.getD last.1, d.getD last.2) then
          readPairs env h fuel klen' dlen' (k.getD last.1, d.getD last.2)
            (env.cursorPut h.dbiFlags (k.getD last.1, d.getD last.2) table) rest
        else none

/-- The table that a load leaves. -/
structure Loaded where
  subname : Option Bytes
  dbiFlags : UInt32
  sequence : UInt64
  records : List Record
  deriving DecidableEq

def dbufLen : Nat := 4096

/-- A load into an environment without the table. -/
def load (env : Env) (h : Header) (s : Bytes) : Option Loaded :=
  match readhdr dbufLen h s with
  | none => none
  | some (h', rest) =>
    if checkTableFlags h'.dbiFlags then
      (readPairs env h' (rest.length + 1) (env.maxvalsize + 1) dbufLen ([], []) [] rest).map
        fun records => ⟨h'.subname, h'.dbiFlags, h'.sequence, records⟩
    else none

def Table.asLoaded {env : Env} (t : Table env) : Loaded :=
  ⟨t.name, t.flags, t.sequence, t.records⟩

end Mdbx.Dump
