import ShouldIAsync.Lib.BinaryFloat
import Mathlib.Algebra.Order.Field.Rat
import Mathlib.Logic.Function.Basic

/-!
# `export_to_duckdb.py`

perf calls the exporter back for every record of a trace. A callback appends a row to a
buffer of the module, one buffer a table, and `trace_end` inserts every buffer that holds a
row into its table and drops the tables that stayed empty. Which tables there are, and how
wide `samples` is, depends on the command line.

An insertion casts every cell to the type of its column: a text of a number with a fraction
becomes the nearest integer in a column of integers, and a number that the type does not have
is an error. The keys of a table have to differ.
-/

namespace ShouldIAsync.IntelProcTrace.Export

open Lib.BinaryFloat

/-- A value of a perf tuple, or a cell of a table. `num` is an integer or its text, `float` the
text of a float64, and `str` any other text. -/
inductive Value where
  | none
  | num (n : ℤ)
  | float (q : ℚ)
  | str (s : String)
  deriving DecidableEq

/-- A row of a table. -/
abbrev Row := List Value

/-- A tuple of perf has a fixed size. -/
abbrev Tuple (n : Nat) := { x : Row // x.length = n }

/-- The tables. -/
inductive Table where
  | selectedEvents | machines | threads | comms | commThreads | dsos | symbols | branchTypes
  | samples | callPaths | calls | ptwrite | cbr | mwait | pwre | exstop | pwrx
  | contextSwitches | auxtraceErrors
  deriving DecidableEq, Repr

/-- The views: one for each table, and `power_events_view`. -/
inductive View where
  | view (t : Table)
  | powerEvents
  deriving DecidableEq

/-- The command line: `columns == "branches"`, and whether `calls` and `callchains` follow. -/
structure Options where
  branches : Bool
  calls : Bool
  callchains : Bool

/-- The exceptions of the script. -/
inductive ExportError where
  /-- `struct.error`: the buffer is too short. -/
  | struct
  | zeroDivision
  /-- The table does not exist. -/
  | catalog (t : Table)
  | catalogView (v : View)
  /-- The table has another number of columns than the rows. -/
  | binder (t : Table)
  /-- A cell is no value of the type of its column. -/
  | conversion (t : Table)
  /-- A key is NULL, or there twice. -/
  | constraint (t : Table)
  deriving DecidableEq

/-! ## The tables -/

/-- The column types of the `CREATE TABLE`s. -/
inductive ColumnType where
  | boolean | integer | bigint | uhugeint | varchar
  deriving DecidableEq

/-- A column with its type -/
abbrev Column := String × ColumnType

/-- The columns of `samples`. -/
def samplesSchema : List Column :=
  [("id", .integer), ("evsel_id", .bigint), ("machine_id", .bigint), ("thread_id", .bigint),
    ("comm_id", .bigint), ("dso_id", .bigint), ("symbol_id", .bigint), ("sym_offset", .bigint),
    ("ip", .bigint), ("time", .bigint), ("cpu", .integer), ("to_dso_id", .bigint),
    ("to_symbol_id", .bigint), ("to_sym_offset", .bigint), ("to_ip", .bigint), ("period", .bigint),
    ("weight", .bigint), ("transaction_", .bigint), ("data_src", .bigint),
      ("branch_type", .integer),
    ("in_tx", .boolean), ("call_path_id", .bigint), ("insn_count", .bigint), ("cyc_count", .bigint),
    ("flags", .integer)]

/-- The columns of `samples` with `branches`. -/
def samplesBranchesSchema : List Column :=
  [("id", .integer), ("evsel_id", .bigint), ("machine_id", .bigint), ("thread_id", .bigint),
    ("comm_id", .bigint), ("dso_id", .bigint), ("symbol_id", .bigint), ("sym_offset", .bigint),
    ("ip", .bigint), ("time", .bigint), ("cpu", .integer), ("to_dso_id", .bigint),
    ("to_symbol_id", .bigint), ("to_sym_offset", .bigint), ("to_ip", .bigint),
    ("branch_type", .integer), ("in_tx", .boolean), ("call_path_id", .bigint),
    ("insn_count", .bigint), ("cyc_count", .bigint), ("flags", .integer)]

/-- `CREATE TABLE`: the columns of a table, `none` if the options do not create it. -/
def schema (o : Options) : Table → Option (List Column)
  | .selectedEvents => some [("id", .integer), ("name", .varchar)]
  | .machines => some [("id", .integer), ("pid", .integer), ("root_dir", .varchar)]
  | .threads =>
    some [("id", .integer), ("machine_id", .bigint), ("process_id", .bigint), ("pid", .integer),
      ("tid", .integer)]
  | .comms =>
    some [("id", .integer), ("comm", .varchar), ("c_thread_id", .bigint), ("c_time", .bigint),
      ("exec_flag", .boolean)]
  | .commThreads => some [("id", .integer), ("comm_id", .bigint), ("thread_id", .bigint)]
  | .dsos =>
    some [("id", .integer), ("machine_id", .bigint), ("short_name", .varchar),
      ("long_name", .varchar), ("build_id", .varchar)]
  | .symbols =>
    some [("id", .integer), ("dso_id", .bigint), ("sym_start", .bigint), ("sym_end", .bigint),
      ("binding", .integer), ("name", .varchar)]
  | .branchTypes => some [("id", .integer), ("name", .varchar)]
  | .samples => some (if o.branches then samplesBranchesSchema else samplesSchema)
  | .callPaths =>
    if o.calls || o.callchains then
      some [("id", .integer), ("parent_id", .bigint), ("symbol_id", .bigint), ("ip", .bigint)]
    else none
  | .calls =>
    if o.calls then
      some [("id", .integer), ("thread_id", .bigint), ("comm_id", .bigint),
        ("call_path_id", .bigint),
        ("call_time", .bigint), ("return_time", .bigint), ("branch_count", .bigint),
        ("call_id", .bigint), ("return_id", .bigint), ("parent_call_path_id", .bigint),
        ("flags", .integer), ("parent_id", .bigint), ("insn_count", .bigint),
          ("cyc_count", .bigint)]
    else none
  | .ptwrite => some [("id", .integer), ("payload", .bigint), ("exact_ip", .integer)]
  | .cbr => some [("id", .integer), ("cbr", .integer), ("mhz", .integer), ("percent", .integer)]
  | .mwait => some [("id", .integer), ("hints", .integer), ("extensions", .integer)]
  | .pwre =>
    some [("id", .integer), ("cstate", .integer), ("subcstate", .integer), ("hw", .integer)]
  | .exstop => some [("id", .integer), ("exact_ip", .integer)]
  | .pwrx =>
    some [("id", .integer), ("deepest_cstate", .integer), ("last_cstate", .integer),
      ("wake_reason", .integer)]
  | .contextSwitches =>
    some [("id", .integer), ("machine_id", .bigint), ("time", .bigint), ("cpu", .integer),
      ("thread_out_id", .bigint), ("comm_out_id", .bigint), ("thread_in_id", .bigint),
      ("comm_in_id", .bigint), ("flags", .integer)]
  | .auxtraceErrors =>
    some [("type", .integer), ("code", .integer), ("cpu", .integer), ("pid", .integer),
      ("tid", .integer), ("ip", .uhugeint), ("time", .bigint), ("msg", .varchar),
      ("cpumode", .integer), ("machine_pid", .integer), ("vcpu", .integer)]

/-- The names of the columns. -/
def columns (o : Options) (t : Table) : Option (List String) :=
  (schema o t).map fun cols => cols.map Prod.fst

/-- Their names. -/
def samplesColumns : List String := samplesSchema.map Prod.fst

/-- The first column is `NOT NULL PRIMARY KEY`. -/
def Table.hasKey : Table → Bool
  | .auxtraceErrors => false
  | _ => true

/-- The views that are created. -/
def createdView (o : Options) : View → Bool
  | .view .machines | .view .dsos | .view .symbols | .view .threads | .view .commThreads => true
  | .view .callPaths => o.calls || o.callchains
  | .view .calls => o.calls
  | .view .samples | .view .ptwrite | .view .cbr | .view .mwait | .view .pwre
  | .view .exstop => true
  | .view .pwrx | .powerEvents | .view .contextSwitches | .view .auxtraceErrors => true
  | .view .selectedEvents | .view .comms | .view .branchTypes => false

/-- A table with its columns. -/
structure Relation where
  columns : List Column
  rows : List Row

/-- The database: the tables and views that exist. -/
structure Db where
  tables : Table → Option Relation
  views : View → Bool

/-- The rows of a table; a table that does not exist has none. -/
def Db.rows (db : Db) (t : Table) : List Row :=
  match db.tables t with
  | none => []
  | some r => r.rows

/-- The database when `trace_begin` is called. -/
def created (o : Options) : Db where
  tables t := (schema o t).map fun cols => ⟨cols, []⟩
  views := createdView o

/-! ## The callbacks -/

/-- The buffers of the module, `ptwrite_data` and so on, by the table they are inserted into. -/
abbrev Buffers := Table → List Row

/-- A row is appended to a buffer. -/
def Buffers.append (b : Buffers) (t : Table) (x : Row) : Buffers :=
  Function.update b t (b t ++ [x])

/-- A callback of perf with its arguments. -/
inductive Callback where
  | evselTable (x : Tuple 2)
  | machineTable (x : Tuple 3)
  | threadTable (x : Tuple 5)
  | commTable (x : Tuple 5)
  | commThreadTable (x : Tuple 3)
  | dsoTable (x : Tuple 5)
  | symbolTable (x : Tuple 6)
  | branchTypeTable (x : Tuple 2)
  | sampleTable (x : Tuple 25)
  | callPathTable (x : Tuple 4)
  | callReturnTable (x : Tuple 14)
  | synthData (id : ℤ) (config : Nat) (rawBuf : List UInt8)
  | contextSwitchTable (x : Tuple 9)
  | auxtraceError (x : Tuple 11)
  | traceUnhandled
  | schedSchedSwitch

/-- A little-endian number. -/
def littleEndian (bytes : List UInt8) : Nat := bytes.foldr (fun byte n => byte.toNat + 256 * n) 0

/-- `struct.unpack_from("<I", raw_buf)` -/
def unpackI (rawBuf : List UInt8) : Except ExportError Nat :=
  if rawBuf.length < 4 then .error .struct else .ok (littleEndian (rawBuf.take 4))

/-- `struct.unpack_from("<IQ", raw_buf)` -/
def unpackIQ (rawBuf : List UInt8) : Except ExportError (Nat × Nat) :=
  if rawBuf.length < 12 then .error .struct
  else .ok (littleEndian (rawBuf.take 4), littleEndian ((rawBuf.drop 4).take 8))

/-- `data[0]`, `data[2]` and `data[4]` of `struct.unpack_from("<BBBBII", raw_buf)` -/
def unpackBBBBII (rawBuf : List UInt8) : Except ExportError (Nat × Nat × Nat) :=
  if rawBuf.length < 12 then .error .struct
  else .ok (littleEndian (rawBuf.take 1), littleEndian ((rawBuf.drop 2).take 1),
    littleEndian ((rawBuf.drop 4).take 4))

def sampleTable (o : Options) (x : Row) (b : Buffers) : Buffers :=
  let xx := if o.branches then x.take 15 ++ (x.drop 19).take 6 else x
  b.append .samples xx

def ptwrite (id : ℤ) (rawBuf : List UInt8) (b : Buffers) : Except ExportError Buffers :=
  match unpackIQ rawBuf with
  | .error e => .error e
  | .ok (flags, payload) =>
    let exactIp := flags &&& 1
    -- the buffer is that of `call_return_table`
    .ok (b.append .calls [.num id, .num payload, .num exactIp])

def cbr (id : ℤ) (rawBuf : List UInt8) (b : Buffers) : Except ExportError Buffers :=
  match unpackBBBBII rawBuf with
  | .error e => .error e
  | .ok (cbr, data2, data4) =>
    -- `/` is the true division
    let mhz := float64 ((data4 + 500) / 1000)
    if data2 = 0 then .error .zeroDivision
    else
      let percent := float64 (float64 (float64 (cbr * 1000 / data2) + 5) / 10)
      .ok (b.append .cbr [.num id, .num cbr, .float mhz, .float percent])

def mwait (id : ℤ) (rawBuf : List UInt8) (b : Buffers) : Except ExportError Buffers :=
  match unpackIQ rawBuf with
  | .error e => .error e
  | .ok (_, payload) =>
    let hints := payload &&& 0xff
    let extensions := (payload >>> 32) &&& 0x3
    .ok (b.append .mwait [.num id, .num hints, .num extensions])

def pwre (id : ℤ) (rawBuf : List UInt8) (b : Buffers) : Except ExportError Buffers :=
  match unpackIQ rawBuf with
  | .error e => .error e
  | .ok (_, payload) =>
    let hw := (payload >>> 7) &&& 1
    let cstate := (payload >>> 12) &&& 0xf
    let subcstate := (payload >>> 8) &&& 0xf
    .ok (b.append .pwre [.num id, .num cstate, .num subcstate, .num hw])

def exstop (id : ℤ) (rawBuf : List UInt8) (b : Buffers) : Except ExportError Buffers :=
  match unpackI rawBuf with
  | .error e => .error e
  | .ok flags =>
    let exactIp := flags &&& 1
    .ok (b.append .exstop [.num id, .num exactIp])

def pwrx (id : ℤ) (rawBuf : List UInt8) (b : Buffers) : Except ExportError Buffers :=
  match unpackIQ rawBuf with
  | .error e => .error e
  | .ok (_, payload) =>
    let deepestCstate := payload &&& 0xf
    let lastCstate := (payload >>> 4) &&& 0xf
    let wakeReason := (payload >>> 8) &&& 0xf
    .ok (b.append .pwrx [.num id, .num deepestCstate, .num lastCstate, .num wakeReason])

def synthData (id : ℤ) (config : Nat) (rawBuf : List UInt8) (b : Buffers) :
    Except ExportError Buffers :=
  if config = 0 then ptwrite id rawBuf b
  else if config = 1 then mwait id rawBuf b
  else if config = 2 then pwre id rawBuf b
  else if config = 3 then exstop id rawBuf b
  else if config = 4 then pwrx id rawBuf b
  else if config = 5 then cbr id rawBuf b
  else .ok b

/-- One callback. -/
def Callback.call (o : Options) : Callback → Buffers → Except ExportError Buffers
  | .evselTable x, b => .ok (b.append .selectedEvents x)
  | .machineTable x, b => .ok (b.append .machines x)
  | .threadTable x, b => .ok (b.append .threads x)
  | .commTable x, b => .ok (b.append .comms x)
  | .commThreadTable x, b => .ok (b.append .commThreads x)
  | .dsoTable x, b => .ok (b.append .dsos x)
  | .symbolTable x, b => .ok (b.append .symbols x)
  | .branchTypeTable x, b => .ok (b.append .branchTypes x)
  | .sampleTable x, b => .ok (Export.sampleTable o x b)
  | .callPathTable x, b => .ok (b.append .callPaths x)
  | .callReturnTable x, b => .ok (b.append .calls x)
  | .synthData id config rawBuf, b => Export.synthData id config rawBuf b
  | .contextSwitchTable x, b => .ok (b.append .contextSwitches x)
  | .auxtraceError x, b => .ok (b.append .auxtraceErrors x)
  | .traceUnhandled, b => .ok b
  | .schedSchedSwitch, b => .ok b

/-- The callbacks one after another; an exception ends the export. -/
def callAll (o : Options) : List Callback → Buffers → Except ExportError Buffers
  | [], b => .ok b
  | c :: cs, b =>
    match c.call o b with
    | .error e => .error e
    | .ok b' => callAll o cs b'

/-- The calls `trace_begin` makes. -/
def traceBegin (o : Options) : List Callback :=
  [.evselTable ⟨[.num 0, .str "unknown"], rfl⟩,
    .machineTable ⟨[.num 0, .num 0, .str "unknown"], rfl⟩,
    .threadTable ⟨[.num 0, .num 0, .num 0, .num (-1), .num (-1)], rfl⟩,
    .commTable ⟨[.num 0, .str "unknown", .num 0, .num 0, .num 0], rfl⟩,
    .dsoTable ⟨[.num 0, .num 0, .str "unknown", .str "unknown", .str ""], rfl⟩,
    .symbolTable ⟨[.num 0, .num 0, .num 0, .num 0, .num 0, .str "unknown"], rfl⟩,
    .sampleTable ⟨List.replicate 25 (.num 0), rfl⟩] ++
  if o.calls || o.callchains then
    [.callPathTable ⟨List.replicate 4 (.num 0), rfl⟩,
      .callReturnTable ⟨List.replicate 14 (.num 0), rfl⟩]
  else []

/-! ## `trace_end` -/

/-- The number of columns of `pandas.DataFrame(data)`. -/
def dataFrameWidth (data : List Row) : Nat := data.foldr (fun x n => max x.length n) 0

/-- The rows of `pandas.DataFrame(data)`: the shorter ones are filled up. -/
def dataFrame (data : List Row) : List Row :=
  data.map fun x => x ++ List.replicate (dataFrameWidth data - x.length) .none

/-- The nearest integer, of two the one away from zero. -/
def roundHalf (q : ℚ) : ℤ := if 0 ≤ q then ⌊q + 1 / 2⌋ else -⌊-q + 1 / 2⌋

/-- An integer as a value of a type. -/
def castNum (n : ℤ) : ColumnType → Option Value
  | .boolean => some (.num (if n = 0 then 0 else 1))
  | .integer => if -2 ^ 31 ≤ n ∧ n < 2 ^ 31 then some (.num n) else none
  | .bigint => if -2 ^ 63 ≤ n ∧ n < 2 ^ 63 then some (.num n) else none
  | .uhugeint => if 0 ≤ n ∧ n < 2 ^ 128 then some (.num n) else none
  | .varchar => some (.num n)

/-- The cast of an insertion. The text of a float64 has the digits it takes to tell it from the
others, so it is on the same side of the middle of two integers. -/
def castCell (type : ColumnType) : Value → Option Value
  | .none => some .none
  | .num n => castNum n type
  | .float q =>
    match type with
    | .varchar => some (.float q)
    | .boolean => none
    | type => castNum (roundHalf q) type
  | .str s => if type = .varchar then some (.str s) else none

/-- Each value is cast to the type of its column. -/
def castRow : List Column → Row → Option Row
  | col :: cols, v :: x =>
    (castCell col.2 v).bind fun v' => (castRow cols x).map fun x' => v' :: x'
  | _, _ => some []

/-- The keys are there, and differ. -/
def KeysDiffer (rows : List Row) : Prop :=
  (rows.map fun x => x.headD .none).Nodup ∧ ∀ x ∈ rows, x.headD .none ≠ .none

instance (rows : List Row) : Decidable (KeysDiffer rows) := inferInstanceAs (Decidable (_ ∧ _))

def insertData (t : Table) (data : List Row) (db : Db) : Except ExportError Db :=
  if data.length = 0 then .ok db
  else
    match db.tables t with
    | none => .error (.catalog t)
    | some r =>
      if dataFrameWidth data = r.columns.length then
        match (dataFrame data).mapM (castRow r.columns) with
        | none => .error (.conversion t)
        | some rows =>
          if t.hasKey = true → KeysDiffer (r.rows ++ rows) then
            .ok { db with
              tables := Function.update db.tables t (some { r with rows := r.rows ++ rows }) }
          else .error (.constraint t)
      else .error (.binder t)

/-- The order of the insertions. -/
def insertOrder : List Table :=
  [.selectedEvents, .machines, .threads, .comms, .commThreads, .dsos, .symbols, .branchTypes,
    .samples, .callPaths, .calls, .ptwrite, .cbr, .mwait, .pwre, .exstop, .pwrx, .contextSwitches,
    .auxtraceErrors]

/-- The inserts of `trace_end`, in its order. -/
def insertAll (b : Buffers) : List Table → Db → Except ExportError Db
  | [], db => .ok db
  | t :: ts, db =>
    match insertData t (b t) db with
    | .error e => .error e
    | .ok db' => insertAll b ts db'

def isTableEmpty (t : Table) (db : Db) : Except ExportError Bool :=
  match db.tables t with
  | none => .error (.catalog t)
  | some r => .ok (r.rows.take 1).isEmpty

def dropView (v : View) (db : Db) : Except ExportError Db :=
  if db.views v then .ok { db with views := Function.update db.views v false }
    else .error (.catalogView v)

def dropTable (t : Table) (db : Db) : Except ExportError Db :=
  match db.tables t with
  | none => .error (.catalog t)
  | some _ => .ok { db with tables := Function.update db.tables t none }

/-- `drop`: the view and then the table -/
def drop (t : Table) (db : Db) : Except ExportError Db :=
  (dropView (.view t) db).bind (dropTable t)

/-- `if is_table_empty(t): drop(t)` -/
def dropIfEmpty (t : Table) (db : Db) : Except ExportError Db :=
  (isTableEmpty t db).bind fun empty => if empty then drop t db else .ok db

/-- `is_table_empty("mwait") and is_table_empty("pwre") and ...` -/
def areTablesEmpty : List Table → Db → Except ExportError Bool
  | [], _ => .ok true
  | t :: ts, db => (isTableEmpty t db).bind fun empty => if empty then areTablesEmpty ts db
    else .ok false

/-- The part of `trace_end` about the power events. -/
def dropPowerEvents (db : Db) : Except ExportError Db :=
  (areTablesEmpty [.mwait, .pwre, .exstop, .pwrx] db).bind fun empty =>
    if empty then
      (dropView .powerEvents db).bind fun db =>
      (drop .mwait db).bind fun db =>
      (drop .pwre db).bind fun db =>
      (drop .exstop db).bind fun db =>
      (drop .pwrx db).bind fun db =>
      dropIfEmpty .cbr db
    else .ok db

def traceEnd (b : Buffers) (db : Db) : Except ExportError Db :=
  (insertAll b insertOrder db).bind fun db =>
  (dropIfEmpty .ptwrite db).bind fun db =>
  (dropPowerEvents db).bind fun db =>
  (dropIfEmpty .contextSwitches db).bind fun db =>
  dropIfEmpty .auxtraceErrors db

/-- The whole export: `trace_begin`, the callbacks of the trace, `trace_end`. -/
def exportTrace (o : Options) (cs : List Callback) : Except ExportError Db :=
  (callAll o (traceBegin o ++ cs) fun _ => []).bind fun b => traceEnd b (created o)

/-! ## What the export is for

Every callback owes its table one row; a `synth_data` event owes the table of its
configuration the integers that the bits of its record stand for. -/

/-- The `n` bits of a number from bit `lo` on. -/
def bits (payload lo n : Nat) : Nat := payload / 2 ^ lo % 2 ^ n

/-- The flags of a record and its payload. -/
def flagsOf (rawBuf : List UInt8) : Nat := littleEndian (rawBuf.take 4)

/-- The payload of a record. -/
def payloadOf (rawBuf : List UInt8) : Nat := littleEndian ((rawBuf.drop 4).take 8)

/-- The ratio of a cbr record. -/
def ratioOf (rawBuf : List UInt8) : Nat := littleEndian (rawBuf.take 1)

/-- The greatest ratio without turbo. -/
def maxRatioOf (rawBuf : List UInt8) : Nat := littleEndian ((rawBuf.drop 2).take 1)

/-- The frequency, in kHz. -/
def frequencyOf (rawBuf : List UInt8) : Nat := littleEndian ((rawBuf.drop 4).take 4)

/-- The table of a configuration and the decoded record. -/
def decoded (config : Nat) (rawBuf : List UInt8) : Option (Table × List Nat) :=
  match config with
  | 0 => some (.ptwrite, [payloadOf rawBuf, bits (flagsOf rawBuf) 0 1])
  | 1 => some (.mwait, [bits (payloadOf rawBuf) 0 8, bits (payloadOf rawBuf) 32 2])
  | 2 => some (.pwre, [bits (payloadOf rawBuf) 12 4, bits (payloadOf rawBuf) 8 4,
    bits (payloadOf rawBuf) 7 1])
  | 3 => some (.exstop, [bits (flagsOf rawBuf) 0 1])
  | 4 => some (.pwrx, [bits (payloadOf rawBuf) 0 4, bits (payloadOf rawBuf) 4 4,
    bits (payloadOf rawBuf) 8 4])
  | 5 => some (.cbr, [ratioOf rawBuf, (frequencyOf rawBuf + 500) / 1000,
      (ratioOf rawBuf * 1000 / maxRatioOf rawBuf + 5) / 10])
  | _ => none

/-- The row of the columns `cols`, from a row of the columns `all`. -/
def project (all cols : List String) (x : Row) : Row :=
  cols.map fun col => x.getD (all.idxOf col) .none

/-- The table a callback is about, and the row it owes it. -/
def Callback.owed (o : Options) : Callback → Option (Table × Row)
  | .evselTable x => some (.selectedEvents, x)
  | .machineTable x => some (.machines, x)
  | .threadTable x => some (.threads, x)
  | .commTable x => some (.comms, x)
  | .commThreadTable x => some (.commThreads, x)
  | .dsoTable x => some (.dsos, x)
  | .symbolTable x => some (.symbols, x)
  | .branchTypeTable x => some (.branchTypes, x)
  | .sampleTable x => some (.samples, project samplesColumns ((columns o .samples).getD []) x)
  | .callPathTable x => some (.callPaths, x)
  | .callReturnTable x => some (.calls, x)
  | .synthData id config rawBuf =>
    (decoded config rawBuf).map fun p => (p.1, .num id :: p.2.map fun n : Nat => .num n)
  | .contextSwitchTable x => some (.contextSwitches, x)
  | .auxtraceError x => some (.auxtraceErrors, x)
  | .traceUnhandled | .schedSchedSwitch => none

/-- The part of a row that goes to the table `t`. -/
def rowOf (t : Table) : Option (Table × Row) → List Row
  | none => []
  | some (u, x) => if u = t then [x] else []

/-- The rows that a table is owed, with those of `trace_begin`. -/
def owedRows (o : Options) (cs : List Callback) (t : Table) : List Row :=
  (traceBegin o ++ cs).flatMap fun c => rowOf t (c.owed o)

/-- No error, and every table holds the rows of its own callbacks in order. -/
def Exports (o : Options) (cs : List Callback) : Prop :=
  ∃ db, exportTrace o cs = .ok db ∧
    ∀ t, db.rows t = owedRows o cs t

/-- When perf invokes a callback. -/
def Callback.Invoked (o : Options) : Callback → Prop
  | .callPathTable _ => o.calls = true ∨ o.callchains = true
  | .callReturnTable _ => o.calls = true
  | _ => True

/-- The bytes that the record of a configuration takes. -/
def recordLength (config : Nat) : Nat :=
  if config = 3 then 4 else if config ≤ 5 then 12 else 0

/-- The frequency in MHz and the percentage of a cbr record are at least half way to the next whole
number, to which the decoded record rounds them. -/
def RoundsUp (rawBuf : List UInt8) : Prop :=
  maxRatioOf rawBuf ≠ 0 ∧ 500 ≤ frequencyOf rawBuf % 1000 ∧
    maxRatioOf rawBuf ≤ 2 * (100 * ratioOf rawBuf % maxRatioOf rawBuf)

/-- A callback that the exporter files as it should: not a ptwrite, the record complete, and a cbr
rounded up, as the exporter does always. -/
def Callback.Sound : Callback → Prop
  | .synthData _ config rawBuf =>
    config ≠ 0 ∧ recordLength config ≤ rawBuf.length ∧ (config = 5 → RoundsUp rawBuf)
  | _ => True

/-- The rows are such that the tables can hold them: values of the types of the columns, with keys
that differ. -/
def Storable (o : Options) (cs : List Callback) : Prop :=
  ∀ t, ∀ cols ∈ schema o t, (∀ x ∈ owedRows o cs t, castRow cols x = some x) ∧
    (t.hasKey = true → KeysDiffer (owedRows o cs t))

end ShouldIAsync.IntelProcTrace.Export
