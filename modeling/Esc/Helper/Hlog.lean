import Esc.Peer.BankTransfer

/-!
# The history log of a block

`commit_block` writes what it did for the requests of a block into a file of records, each with a
type in front. A client reads the records back from a copy of the file. A withdrawal is written with
the type of a new node, whose record is shorter, so the reader takes the wrong record from the file
and then continues in the middle of the record that was written.
-/

namespace Esc

open Lib

def u64Codec : Codec UInt64 where
  width := 8
  encode x := bytesLE 8 x.toNat
  decode bs := .ofNat (ofLE (bs.take 8))
  length_encode x := length_bytesLE 8 _
  decode_encode x rest := by
    have hx : x.toNat < 256 ^ 8 := x.toNat_lt
    rw [List.take_left' (length_bytesLE 8 _), ofLE_bytesLE, Nat.mod_eq_of_lt hx,
      UInt64.ofNat_toNat]

/-- The calls of `commit_block` to the log, and the records that a reader finds. -/
inductive HlogRecord where
  | uso (auser buser : UInt32) (atxid btxid : UInt64)
  | uok (abank : UInt16) (auser buser : UInt32) (btxid : UInt64)
  | usr (auser : UInt32) (bbank : UInt16) (atxid : UInt64)
  | bky (bbank : UInt16) (atxid : UInt64)
  | sbs (bbank : UInt16) (status : UInt32) (atxid : UInt64)
  | ubs (bbank : UInt16) (status : UInt32) (atxid : UInt64)
  | bnk (auser : UInt32) (bbank : UInt16) (atxid : UInt64)
  | get (auser : UInt32) (bbank : UInt16) (buser : UInt32) (atxid : UInt64)
deriving DecidableEq

/-! The fields of the records behind the type. -/

def blgUso : Codec (UInt32 × UInt32 × UInt64 × UInt64) :=
  u32Codec.prod (u32Codec.prod (u64Codec.prod u64Codec))

def blgUok : Codec (UInt16 × UInt32 × UInt32 × UInt64) :=
  u16Codec.prod (u32Codec.prod (u32Codec.prod u64Codec))

def blgUsr : Codec (UInt32 × UInt16 × UInt64) := u32Codec.prod (u16Codec.prod u64Codec)

def blgBky : Codec (UInt16 × UInt64) := u16Codec.prod u64Codec

def blgSbs : Codec (UInt16 × UInt32 × UInt64) := u16Codec.prod (u32Codec.prod u64Codec)

def blgUbs : Codec (UInt16 × UInt32 × UInt64) := u16Codec.prod (u32Codec.prod u64Codec)

def blgBnk : Codec (UInt32 × UInt16 × UInt64) := u32Codec.prod (u16Codec.prod u64Codec)

def blgGet : Codec (UInt32 × UInt16 × UInt32 × UInt64) :=
  u32Codec.prod (u16Codec.prod (u32Codec.prod u64Codec))

def hlogUso : UInt8 := 1
def hlogUok : UInt8 := 2
def hlogUsr : UInt8 := 3
def hlogBky : UInt8 := 4
def hlogSbs : UInt8 := 5
def hlogUbs : UInt8 := 6
def hlogBnk : UInt8 := 7
def hlogGet : UInt8 := 8

/-- The bytes that `save_uso` to `save_get` write. -/
def HlogRecord.bytes : HlogRecord → List UInt8
  | .uso auser buser atxid btxid => hlogUso :: blgUso.encode (auser, buser, atxid, btxid)
  | .uok abank auser buser btxid => hlogUok :: blgUok.encode (abank, auser, buser, btxid)
  | .usr auser bbank atxid => hlogUsr :: blgUsr.encode (auser, bbank, atxid)
  | .bky bbank atxid => hlogBky :: blgBky.encode (bbank, atxid)
  | .sbs bbank status atxid => hlogSbs :: blgSbs.encode (bbank, status, atxid)
  | .ubs bbank status atxid => hlogUbs :: blgUbs.encode (bbank, status, atxid)
  | .bnk auser bbank atxid => hlogBnk :: blgBnk.encode (auser, bbank, atxid)
  -- The type of a new node.
  | .get auser bbank buser atxid => hlogBnk :: blgGet.encode (auser, bbank, buser, atxid)

/-- A log that is being written: the bytes that went into the hash, their number in an `int`, and
the file. -/
structure Hlog where
  hashed : List UInt8 := []
  total : Int32 := 0
  file : List UInt8 := []

def Hlog.save (h : Hlog) (r : HlogRecord) : Hlog :=
  { hashed := h.hashed ++ r.bytes
    total := h.total + .ofNat r.bytes.length
    file := h.file ++ r.bytes }

def Hlog.finish (c : Crypto) (h : Hlog) : Hash × Int32 := (c.sha256 h.hashed, h.total)

/-! ## Reading -/

/-- The fields of a record in memory. -/
def hlogFields {α : Type} (c : Codec α) (d : Bytes) : α := c.decode ((d.skip 1).take c.width)

/-- The record at a pointer and its length; `none` for an unknown type. -/
def readRecord (d : Bytes) : Option (HlogRecord × Nat) :=
  if d 0 = hlogUso then
    let (auser, buser, atxid, btxid) := hlogFields blgUso d
    some (.uso auser buser atxid btxid, 1 + blgUso.width)
  else if d 0 = hlogUok then
    let (abank, auser, buser, btxid) := hlogFields blgUok d
    some (.uok abank auser buser btxid, 1 + blgUok.width)
  else if d 0 = hlogUsr then
    let (auser, bbank, atxid) := hlogFields blgUsr d
    some (.usr auser bbank atxid, 1 + blgUsr.width)
  else if d 0 = hlogBky then
    let (bbank, atxid) := hlogFields blgBky d
    some (.bky bbank atxid, 1 + blgBky.width)
  else if d 0 = hlogSbs then
    let (bbank, status, atxid) := hlogFields blgSbs d
    some (.sbs bbank status atxid, 1 + blgSbs.width)
  else if d 0 = hlogUbs then
    let (bbank, status, atxid) := hlogFields blgUbs d
    some (.ubs bbank status atxid, 1 + blgUbs.width)
  else if d 0 = hlogBnk then
    let (auser, bbank, atxid) := hlogFields blgBnk d
    some (.bnk auser bbank atxid, 1 + blgBnk.width)
  else if d 0 = hlogGet then
    let (auser, bbank, buser, atxid) := hlogFields blgGet d
    some (.get auser bbank buser atxid, 1 + blgGet.width)
  else none

/-- The loop of `printJson` over `total` bytes of memory: the records and the bytes that go into
the hash. The number of bytes read so far is an `int`; when it leaves the range the behaviour is
undefined. -/
def readRecords (total : Int32) (data : Bytes) : Nat → Nat → Option (List HlogRecord × List UInt8)
  | 0, _ => none
  | fuel + 1, readDataLength =>
    if total.toInt ≤ readDataLength then some ([], [])
    else do
      let (log, n) ← readRecord (data.skip readDataLength)
      if 2 ^ 31 ≤ readDataLength + n then none
      let (logs, hashed) ← readRecords total data fuel (readDataLength + n)
      return (log :: logs, (data.skip readDataLength).take n ++ hashed)

/-- `printJson` of a copy of a file that has been received with its length. The copy is followed by
other memory. -/
def printJson (c : Crypto) (heap : Bytes) (file : List UInt8) : Option (List HlogRecord × Hash) :=
  let total := Int32.ofNat file.length
  let data := Bytes.ofList file heap
  (readRecords total data (file.length + 1) 0).map fun p => (p.1, c.sha256 p.2)

theorem hlogFields_append {α : Type} (c : Codec α) (type : UInt8) (a : α) (rest : List UInt8)
    (heap : Bytes) : hlogFields c (Bytes.ofList (type :: c.encode a ++ rest) heap) = a := by
  have hskip : (Bytes.ofList (type :: c.encode a ++ rest) heap).skip 1 =
      Bytes.ofList (c.encode a ++ rest) heap :=
    Bytes.skip_ofList_append (rfl : [type].length = 1) (c.encode a ++ rest) heap
  rw [hlogFields, hskip, Bytes.take_ofList_append (c.length_encode a), Codec.decode_encode_self]

/-- The record is a withdrawal. -/
def HlogRecord.isGet : HlogRecord → Bool
  | .get .. => true
  | _ => false

/-- A reader finds the record that was written, unless it is a withdrawal. -/
theorem readRecord_bytes {r : HlogRecord} (hr : r.isGet = false) (rest : List UInt8)
    (heap : Bytes) :
    readRecord (Bytes.ofList (r.bytes ++ rest) heap) = some (r, r.bytes.length) := by
  cases r
  case get => cases hr
  all_goals
    rw [readRecord, HlogRecord.bytes, hlogFields_append]
    rfl

/-- It takes a withdrawal for a new node. -/
theorem readRecord_get {r : HlogRecord} (hr : r.isGet = true) (rest : List UInt8) (heap : Bytes) :
    ∃ auser bbank atxid, readRecord (Bytes.ofList (r.bytes ++ rest) heap) =
      some (.bnk auser bbank atxid, 15) := by
  cases r with
  | get auser bbank buser atxid => exact ⟨_, _, _, rfl⟩
  | _ => cases hr

theorem length_of_readRecord {d : Bytes} {r : HlogRecord} {n : Nat}
    (h : readRecord d = some (r, n)) : r.bytes.length = n := by
  rw [readRecord] at h
  split_ifs at h
  all_goals
    obtain ⟨rfl, rfl⟩ := Prod.mk.inj (Option.some.inj h)
    rw [HlogRecord.bytes, List.length_cons, Codec.length_encode, Nat.add_comm]

/-- The records that a reader has found are not longer than an `int` counts. -/
theorem length_of_readRecords {total : Int32} {data : Bytes} {fuel pos : Nat}
    {rs : List HlogRecord} {hashed : List UInt8} (hpos : pos < 2 ^ 31)
    (h : readRecords total data fuel pos = some (rs, hashed)) :
    pos + (rs.flatMap HlogRecord.bytes).length < 2 ^ 31 := by
  induction fuel generalizing pos rs hashed with
  | zero => cases h
  | succ fuel ih =>
    rw [readRecords] at h
    split at h
    · rw [← (Prod.mk.inj (Option.some.inj h)).1]
      exact hpos
    · simp only [Option.bind_eq_bind, Option.bind_eq_some_iff, Prod.exists] at h
      obtain ⟨r, n, hr, h⟩ := h
      split at h
      · cases h
      · rename_i hn
        simp only [Option.bind_eq_some_iff, Prod.exists, Option.pure_def, Option.some.injEq,
          Prod.mk.injEq] at h
        obtain ⟨rs', hashed', hrest, rfl, -⟩ := h
        have hlength := ih (by omega) hrest
        rw [List.flatMap_cons, List.length_append, length_of_readRecord hr]
        omega

/-- A reader finds the records in front of the first withdrawal and goes on behind them. -/
theorem readRecords_append {total : Int32} {data : Bytes} {fuel pos : Nat} {rs : List HlogRecord}
    {rest : List UInt8} {heap : Bytes} (hrs : ∀ r ∈ rs, r.isGet = false)
    (hdata : data.skip pos = Bytes.ofList (rs.flatMap HlogRecord.bytes ++ rest) heap)
    (htotal : (pos + (rs.flatMap HlogRecord.bytes).length : Nat) ≤ total.toInt) :
    readRecords total data (rs.length + fuel) pos =
      (readRecords total data fuel (pos + (rs.flatMap HlogRecord.bytes).length)).map fun p =>
        (rs ++ p.1, rs.flatMap HlogRecord.bytes ++ p.2) := by
  induction rs generalizing pos with
  | nil =>
    rw [List.length_nil, Nat.zero_add]
    exact Option.map_id'.symm
  | cons r rs ih =>
    have hlt := total.toInt_lt
    have hr := hrs r List.mem_cons_self
    rw [List.flatMap_cons, List.append_assoc] at hdata
    rw [List.flatMap_cons, List.length_append] at htotal
    have hread := readRecord_bytes hr (rs.flatMap HlogRecord.bytes ++ rest) heap
    have hpos : 0 < r.bytes.length := by
      cases r <;> exact Nat.succ_pos _
    have hnext : data.skip (pos + r.bytes.length) =
        Bytes.ofList (rs.flatMap HlogRecord.bytes ++ rest) heap := by
      rw [← Bytes.skip_skip, hdata, Bytes.skip_ofList_append rfl]
    have hrest := ih (fun r' hr' => hrs r' (List.mem_cons_of_mem r hr')) hnext (by omega)
    rw [List.length_cons, Nat.add_right_comm, readRecords, if_neg (by omega)]
    simp only [hdata, hread, Option.bind_eq_bind, Option.bind_some]
    rw [if_neg (by omega), hrest, Bytes.take_ofList_append rfl, List.flatMap_cons,
      List.length_append, ← Nat.add_assoc]
    cases readRecords total data fuel (pos + r.bytes.length +
        (rs.flatMap HlogRecord.bytes).length) with
    | none => rfl
    | some p => simp

/-! ## The round trip -/

section

variable (c : Crypto) (heap : Bytes)

/-- The log after a number of calls. -/
def hlogOf (rs : List HlogRecord) : Hlog := rs.foldl Hlog.save {}

theorem hlogOf_eq (rs : List HlogRecord) :
    (hlogOf rs).file = rs.flatMap HlogRecord.bytes ∧
      (hlogOf rs).hashed = rs.flatMap HlogRecord.bytes := by
  have hfold (h : Hlog) : (rs.foldl Hlog.save h).file = h.file ++ rs.flatMap HlogRecord.bytes ∧
      (rs.foldl Hlog.save h).hashed = h.hashed ++ rs.flatMap HlogRecord.bytes := by
    induction rs generalizing h with
    | nil => simp
    | cons r rs ih =>
      rw [List.foldl_cons, (ih _).1, (ih _).2, List.flatMap_cons, ← List.append_assoc,
        ← List.append_assoc]
      exact ⟨rfl, rfl⟩
  exact hfold {}

theorem length_le_hlogFile (rs : List HlogRecord) :
    rs.length ≤ (rs.flatMap HlogRecord.bytes).length := by
  induction rs with
  | nil => exact Nat.le_refl 0
  | cons r rs ih =>
    have hpos : 0 < r.bytes.length := by
      cases r <;> exact Nat.succ_pos _
    rw [List.flatMap_cons, List.length_append, List.length_cons]
    omega

/-- A log without withdrawals and of less than two gigabytes is read back. -/
theorem printJson_eq {rs : List HlogRecord} (hrs : ∀ r ∈ rs, r.isGet = false)
    (hlength : (hlogOf rs).file.length < 2 ^ 31) :
    printJson c heap (hlogOf rs).file = some (rs, ((hlogOf rs).finish c).1) := by
  rw [Hlog.finish, (hlogOf_eq rs).2]
  rw [(hlogOf_eq rs).1] at hlength ⊢
  have htotal := Int32.toInt_ofNat_of_lt hlength
  obtain ⟨fuel, hfuel⟩ := Nat.exists_eq_add_of_le (length_le_hlogFile rs)
  have hdata : (Bytes.ofList (rs.flatMap HlogRecord.bytes) heap).skip 0 =
      Bytes.ofList (rs.flatMap HlogRecord.bytes ++ []) heap := by
    rw [List.append_nil]
    exact Bytes.skip_zero _
  have hread : readRecords (.ofNat (rs.flatMap HlogRecord.bytes).length)
      (Bytes.ofList (rs.flatMap HlogRecord.bytes) heap) (rs.length + (fuel + 1)) 0 =
      some (rs, rs.flatMap HlogRecord.bytes) := by
    rw [readRecords_append hrs hdata (by rw [htotal, Nat.zero_add]), readRecords,
      if_pos (by rw [htotal, Nat.zero_add]), Option.map_some, List.append_nil, List.append_nil]
  simp only [printJson]
  rw [show (rs.flatMap HlogRecord.bytes).length + 1 = rs.length + (fuel + 1) by omega, hread,
    Option.map_some]

/-- A log with a withdrawal is not read back. -/
theorem printJson_ne {rs : List HlogRecord} (hlength : (hlogOf rs).file.length < 2 ^ 31)
    {g : HlogRecord} (hg : g ∈ rs) (hget : g.isGet = true) (hash : Hash) :
    printJson c heap (hlogOf rs).file ≠ some (rs, hash) := by
  intro h
  -- The first withdrawal and what stands in front of it.
  obtain ⟨g, hfind⟩ := Option.isSome_iff_exists.mp (List.find?_isSome.mpr ⟨g, hg, hget⟩)
  obtain ⟨hget, front, behind, hrs, hfront⟩ := List.find?_eq_some_iff_append.mp hfind
  have hbytes : rs.flatMap HlogRecord.bytes = front.flatMap HlogRecord.bytes ++
      (g.bytes ++ behind.flatMap HlogRecord.bytes) := by
    rw [hrs, List.flatMap_append, List.flatMap_cons]
  have hpos : 0 < g.bytes.length := by
    cases g <;> exact Nat.succ_pos _
  have hlengths := congrArg List.length hbytes
  rw [List.length_append, List.length_append] at hlengths
  rw [(hlogOf_eq rs).1] at h hlength
  have htotal := Int32.toInt_ofNat_of_lt hlength
  obtain ⟨fuel, hfuel⟩ := Nat.exists_eq_add_of_le (length_le_hlogFile front)
  obtain ⟨p, hread, hp⟩ := Option.map_eq_some_iff.mp h
  have hdata : (Bytes.ofList (rs.flatMap HlogRecord.bytes) heap).skip 0 =
      Bytes.ofList (front.flatMap HlogRecord.bytes ++
        (g.bytes ++ behind.flatMap HlogRecord.bytes)) heap := by
    rw [← hbytes]
    exact Bytes.skip_zero _
  rw [show (rs.flatMap HlogRecord.bytes).length + 1 =
        front.length + (fuel + ((rs.flatMap HlogRecord.bytes).length -
          (front.flatMap HlogRecord.bytes).length) + 1) by omega,
    readRecords_append (fun r hr => by simpa using hfront r hr) hdata
      (by rw [htotal]; omega)] at hread
  obtain ⟨q, hq, rfl⟩ := Option.map_eq_some_iff.mp hread
  have hskip : (Bytes.ofList (rs.flatMap HlogRecord.bytes) heap).skip
      (0 + (front.flatMap HlogRecord.bytes).length) =
      Bytes.ofList (g.bytes ++ behind.flatMap HlogRecord.bytes) heap := by
    rw [hbytes, Nat.zero_add, Bytes.skip_ofList_append rfl]
  obtain ⟨auser, bbank, atxid, hnode⟩ :=
    readRecord_get hget (behind.flatMap HlogRecord.bytes) heap
  rw [readRecords, if_neg (by rw [htotal]; omega), hskip, hnode] at hq
  simp only [Option.bind_eq_bind, Option.bind_some] at hq
  split at hq
  · cases hq
  · obtain ⟨tail, -, hq⟩ := Option.bind_eq_some_iff.mp hq
    have hlist := (Prod.mk.inj hp).1
    rw [← Option.some.inj hq, hrs] at hlist
    have hhead := (List.cons.inj (List.append_cancel_left hlist)).1
    rw [← hhead] at hget
    cases hget

/-- A log is read back, with its hash, exactly if it has no withdrawal and less than two
gigabytes. -/
theorem printJson_iff (rs : List HlogRecord) :
    printJson c heap (hlogOf rs).file = some (rs, ((hlogOf rs).finish c).1) ↔
      (∀ r ∈ rs, r.isGet = false) ∧ (hlogOf rs).file.length < 2 ^ 31 := by
  constructor
  · intro h
    have hlength : (hlogOf rs).file.length < 2 ^ 31 := by
      obtain ⟨p, hread, hp⟩ := Option.map_eq_some_iff.mp h
      have hle := length_of_readRecords (by decide) hread
      rwa [Nat.zero_add, (Prod.mk.inj hp).1, ← (hlogOf_eq rs).1] at hle
    refine ⟨fun r hr => ?_, hlength⟩
    by_contra hget
    exact printJson_ne c heap hlength hr (Bool.eq_true_of_not_eq_false hget) _ h
  · rintro ⟨hrs, hlength⟩
    exact printJson_eq c heap hrs hlength

end

/-- A log of one withdrawal is not read back. -/
theorem printJson_get :
    printJson ⟨fun _ => 0, fun _ _ _ => false, fun _ => none⟩ (fun _ => 0)
        (hlogOf [.get 1 2 3 4]).file ≠
      some ([.get 1 2 3 4],
        ((hlogOf [.get 1 2 3 4]).finish ⟨fun _ => 0, fun _ _ _ => false, fun _ => none⟩).1) := by
  apply printJson_ne
  · rw [(hlogOf_eq _).1]
    decide
  · exact List.mem_singleton_self _
  · rfl

end Esc
