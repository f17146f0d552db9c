import Esc.Helper.BlockFileReader
import Esc.Server.MessageList

/-!
# The node table on disk

`data_write` stores the header of a block and the node table in `servers.srv`, and
`header_put` writes a later header over the first bytes of the same file. The file is not
truncated by either. `data_read` reads the header field by field and then as many nodes as
the header says.

The nodes that are written are counted by the field `nod` and not by the table, so the round
trip depends on the two being equal in the header of each write.
-/

namespace Esc

open Lib

variable {file rest : List UInt8} {s : SrvData} {h : SrvHeader}

/-- The fields of `servers` that are stored before the nodes, behind the version. -/
structure SrvHeader where
  now : UInt32 := 0
  msg : UInt32 := 0
  nod : UInt32 := 0
  div : UInt32 := 0
  oldhash : Hash := 0
  minhash : Hash := 0
  msghash : Hash := 0
  nodhash : Hash := 0
  viphash : Hash := 0
  nowhash : Hash := 0
  vok : UInt16 := 0
  vno : UInt16 := 0
  vtot : UInt16 := 0
deriving DecidableEq, Repr

/-- The stored fields of a node; its transactions and changed bits are not stored. -/
structure SrvNode where
  pk : Hash := 0
  hash : Hash := 0
  msha : Hash := 0
  msid : UInt32 := 0
  mtim : UInt32 := 0
  weight : Int64 := 0
  status : UInt32 := 0
  users : UInt32 := 0
  port : UInt32 := 0
  ipv4 : UInt32 := 0
deriving DecidableEq, Repr

/-- A `servers` object, as far as it is stored. -/
structure SrvData where
  header : SrvHeader := {}
  nodes : List SrvNode := []
deriving DecidableEq, Repr

/-- The header fields in the order of the file. -/
def srvHeaderCodec : Codec SrvHeader :=
  (u32Codec.prod (u32Codec.prod (u32Codec.prod (u32Codec.prod (hashCodec.prod (hashCodec.prod
    (hashCodec.prod (hashCodec.prod (hashCodec.prod (hashCodec.prod (u16Codec.prod
      (u16Codec.prod u16Codec)))))))))))).map
    (fun (now, msg, nod, div, oldhash, minhash, msghash, nodhash, viphash, nowhash, vok, vno,
      vtot) => ⟨now, msg, nod, div, oldhash, minhash, msghash, nodhash, viphash, nowhash, vok,
        vno, vtot⟩)
    (fun h => (h.now, h.msg, h.nod, h.div, h.oldhash, h.minhash, h.msghash, h.nodhash, h.viphash,
      h.nowhash, h.vok, h.vno, h.vtot))
    (fun _ => rfl)

/-- The node fields in the order of the file. -/
def srvNodeCodec : Codec SrvNode :=
  (hashCodec.prod (hashCodec.prod (hashCodec.prod (u32Codec.prod (u32Codec.prod (i64Codec.prod
    (u32Codec.prod (u32Codec.prod (u32Codec.prod u32Codec))))))))).map
    (fun (pk, hash, msha, msid, mtim, weight, status, users, port, ipv4) =>
      ⟨pk, hash, msha, msid, mtim, weight, status, users, port, ipv4⟩)
    (fun n => (n.pk, n.hash, n.msha, n.msid, n.mtim, n.weight, n.status, n.users, n.port, n.ipv4))
    (fun _ => rfl)

/-- The reads of the header in `data_read`, behind the version. -/
def srvHeaderFields : List Nat := [4, 4, 4, 4, 32, 32, 32, 32, 32, 32, 2, 2, 2]

/-- The reads of one node in `data_read`. -/
def srvNodeFields : List Nat := [32, 32, 32, 4, 4, 8, 4, 4, 4, 4]

/-- The version and the header fields. -/
def srvHead (h : SrvHeader) : List UInt8 := bytesLE 4 1 ++ srvHeaderCodec.encode h

/-- `data_write` into a file with the given content. It is undefined when `nod` exceeds the
table. -/
def dataWrite (s : SrvData) (writeNodes : Bool) (old : List UInt8) : Option (List UInt8) :=
  if writeNodes then
    if s.nodes.length < s.header.nod.toNat then none
    else some (overwrite
      (srvHead s.header ++ srvNodeCodec.encodeAll (s.nodes.take s.header.nod.toNat)) old)
  else some (overwrite (srvHead s.header) old)

/-- The reads of consecutive fields into memory with the given content. A short read leaves
the rest of a field as it was. -/
def readFields (r : BlockFileReader) : List Nat → List UInt8 →
    Option (List UInt8 × BlockFileReader)
  | [], _ => some ([], r)
  | w :: ws, memory => do
      let (bytes, r) ← r.read (.ofNat w)
      let (rest, r) ← readFields r ws (memory.drop w)
      return (overwrite bytes (memory.take w) ++ rest, r)

/-- `nodes.resize(nod)`. -/
def resizeNodes (nodes : List SrvNode) (nod : Nat) : List SrvNode :=
  nodes.take nod ++ List.replicate (nod - nodes.length) ({} : SrvNode)

/-- `data_read` of a file into an object; nothing changes if the file is empty. -/
def dataRead (s : SrvData) (readNodes : Bool) (file : List UInt8) : Option SrvData := do
  let r : BlockFileReader := { fd := some file, fileSize := file.length }
  if !r.isOpen then return s
  let (_, r) ← r.read 4
  let (bytes, r) ← readFields r srvHeaderFields (srvHeaderCodec.encode s.header)
  let header := srvHeaderCodec.decode bytes
  if readNodes && header.nod != 0 then
    let nod := header.nod.toNat
    let (bytes, _) ← readFields r (List.replicate nod srvNodeFields).flatten
      (srvNodeCodec.encodeAll (resizeNodes s.nodes nod))
    return { header, nodes := srvNodeCodec.decodeAll nod bytes }
  else return { s with header }

/-- The header overlays of `header_put`, one after the other. -/
def headerPuts (headers : List SrvHeader) (file : List UInt8) : Option (List UInt8) :=
  headers.foldlM (fun file header => dataWrite { header } false file) file

/-- The object and the headers put over it come back from the file. -/
def Restores (s : SrvData) (headers : List SrvHeader) (r : SrvData) (old : List UInt8) : Prop :=
  ((dataWrite s true old).bind (headerPuts headers)).bind (dataRead r true) =
    some { s with header := headers.getLast?.getD s.header }

/-! ## Reading the fields -/

/-- Consecutive fields inside a file are read as one piece, if the last of them starts below
`2 ^ 31`. -/
theorem readFields_atPos (hfile : file.length < 2 ^ 63) {ws : List Nat} {p : Nat}
    (memory : List UInt8) (hw : ∀ w ∈ ws, w ≤ 2 ^ 30) (hle : p + ws.sum ≤ file.length)
    (hp : p < 2 ^ 31 + 2 ^ 30) :
    readFields (.atPos file p) ws memory =
      if ws = [] ∨ p + ws.dropLast.sum < 2 ^ 31 then
        some (slice file p ws.sum, .atPos file (p + ws.sum))
      else none := by
  induction ws generalizing p memory with
  | nil => simp [readFields, slice]
  | cons w ws ih =>
    rw [List.sum_cons] at hle
    have hread := BlockFileReader.read_at hfile (hw w List.mem_cons_self)
      (show p + w ≤ file.length by omega) hp
    rw [readFields, hread]
    by_cases hsmall : p < 2 ^ 31
    · have hstep := ih (p := p + w) (memory.drop w) (fun w' hw' => hw w' (by simp [hw']))
        (by omega) (by have := hw w List.mem_cons_self; omega)
      have hfull : (slice file p w).length = w := by
        rw [slice, List.length_take, List.length_drop]
        omega
      have hover : overwrite (slice file p w) (memory.take w) = slice file p w := by
        rw [overwrite, hfull, List.drop_of_length_le (List.length_take_le _ _), List.append_nil]
      have hjoin : slice file p w ++ slice file (p + w) ws.sum = slice file p (w + ws.sum) := by
        rw [slice, slice, slice, List.take_add, List.drop_drop]
      have hcond : (w :: ws = [] ∨ p + (w :: ws).dropLast.sum < 2 ^ 31) ↔
          (ws = [] ∨ p + w + ws.dropLast.sum < 2 ^ 31) := by
        cases ws with
        | nil => simpa using hsmall
        | cons w' ws => simp [Nat.add_assoc]
      rw [if_pos hsmall]
      simp only [Option.bind_eq_bind, Option.bind_some, hstep, hcond, List.sum_cons]
      split
      · simp [hover, hjoin, Nat.add_assoc]
      · rfl
    · rw [if_neg hsmall, if_neg (by simp; omega)]
      rfl

/-! ## The file -/

@[simp] theorem length_srvHead (h : SrvHeader) : (srvHead h).length = 218 := by
  rw [srvHead, List.length_append, length_bytesLE, Codec.length_encode]
  rfl

/-- An overlay replaces the header and leaves the nodes. -/
theorem headerPuts_eq (headers : List SrvHeader) (h : SrvHeader) (rest : List UInt8) :
    headerPuts headers (srvHead h ++ rest) =
      some (srvHead (headers.getLast?.getD h) ++ rest) := by
  induction headers generalizing h with
  | nil => rfl
  | cons h' headers ih =>
    have hwrite : dataWrite { header := h' } false (srvHead h ++ rest) =
        some (srvHead h' ++ rest) := by
      rw [dataWrite, if_neg (by decide), overwrite, length_srvHead,
        List.drop_left' (length_srvHead h)]
    have hput : headerPuts (h' :: headers) (srvHead h ++ rest) =
        headerPuts headers (srvHead h' ++ rest) := by
      rw [headerPuts, List.foldlM_cons, hwrite]
      rfl
    rw [hput, ih h', List.getLast?_cons, Option.getD_some]

/-- What `data_write` and the overlays leave in the file. -/
theorem dataWrite_puts (hnod : s.header.nod.toNat ≤ s.nodes.length) (headers : List SrvHeader)
    (old : List UInt8) :
    (dataWrite s true old).bind (headerPuts headers) =
      some (srvHead (headers.getLast?.getD s.header) ++
        (srvNodeCodec.encodeAll (s.nodes.take s.header.nod.toNat) ++
          old.drop (218 + s.header.nod.toNat * 128))) := by
  have hlength : (srvHead s.header ++
      srvNodeCodec.encodeAll (s.nodes.take s.header.nod.toNat)).length =
        218 + s.header.nod.toNat * 128 := by
    rw [List.length_append, length_srvHead, Codec.length_encodeAll, List.length_take_of_le hnod]
    rfl
  rw [dataWrite, if_pos rfl, if_neg (Nat.not_lt.mpr hnod), overwrite, hlength, Option.bind_some,
    List.append_assoc, headerPuts_eq]

/-- The header is read back. -/
theorem readHeader_eq (hfile : file.length < 2 ^ 63) (heq : file = srvHead h ++ rest)
    (memory : List UInt8) :
    readFields (.atPos file 4) srvHeaderFields memory =
      some (srvHeaderCodec.encode h, .atPos file 218) := by
  have hlength : 218 ≤ file.length := by
    rw [heq, List.length_append, length_srvHead]
    omega
  have hslice : slice file 4 214 = srvHeaderCodec.encode h := by
    have henc : (srvHeaderCodec.encode h).length = 214 := srvHeaderCodec.length_encode h
    rw [slice, heq, srvHead, List.append_assoc, List.drop_left' (length_bytesLE 4 1),
      List.take_left' henc]
  rw [readFields_atPos hfile memory (by decide) (by exact hlength) (by decide),
    if_pos (by decide)]
  exact congrArg (fun bytes => some (bytes, BlockFileReader.atPos file 218)) hslice

theorem sum_nodeFields (n : Nat) : (List.replicate n srvNodeFields).flatten.sum = n * 128 := by
  induction n with
  | zero => rfl
  | succ n ih =>
    rw [List.replicate_succ, List.flatten_cons, List.sum_append, ih]
    show 128 + n * 128 = (n + 1) * 128
    omega

/-- The last field of the last node starts four bytes before the end. -/
theorem sum_dropLast_nodeFields (n : Nat) :
    (List.replicate (n + 1) srvNodeFields).flatten.dropLast.sum = n * 128 + 124 := by
  rw [List.replicate_succ', List.flatten_append, List.flatten_singleton,
    List.dropLast_append_of_ne_nil (by decide), List.sum_append, sum_nodeFields]
  rfl

/-- The nodes are read as one piece. -/
theorem readNodes_eq (hfile : file.length < 2 ^ 63) (heq : file = srvHead h ++ rest) {n : Nat}
    (hrest : (n + 1) * 128 ≤ rest.length) (memory : List UInt8) :
    readFields (.atPos file 218) (List.replicate (n + 1) srvNodeFields).flatten memory =
      if 214 + (n + 1) * 128 < 2 ^ 31 then
        some (rest.take ((n + 1) * 128), .atPos file (218 + (n + 1) * 128))
      else none := by
  have hlength : 218 + (n + 1) * 128 ≤ file.length := by
    rw [heq, List.length_append, length_srvHead]
    omega
  have hslice : slice file 218 ((n + 1) * 128) = rest.take ((n + 1) * 128) := by
    rw [slice, heq, List.drop_left' (length_srvHead h)]
  have hfields : ∀ w ∈ (List.replicate (n + 1) srvNodeFields).flatten, w ≤ 2 ^ 30 := by
    intro w hw
    obtain ⟨fields, hfields, hw⟩ := List.mem_flatten.mp hw
    rw [List.eq_of_mem_replicate hfields] at hw
    exact (show ∀ w ∈ srvNodeFields, w ≤ 2 ^ 30 by decide) w hw
  have hne : (List.replicate (n + 1) srvNodeFields).flatten ≠ [] := by
    simp [List.replicate_succ, srvNodeFields]
  rw [readFields_atPos hfile memory hfields (by rw [sum_nodeFields]; exact hlength) (by decide),
    sum_dropLast_nodeFields, sum_nodeFields, hslice]
  refine if_congr ?_ rfl rfl
  rw [or_iff_right hne]
  omega

/-- The reader up to the nodes. -/
theorem dataRead_head (hfile : file.length < 2 ^ 63) (heq : file = srvHead h ++ rest)
    (r : SrvData) :
    dataRead r true file =
      if h.nod = 0 then some { r with header := h }
      else
        (readFields (.atPos file 218) (List.replicate h.nod.toNat srvNodeFields).flatten
          (srvNodeCodec.encodeAll (resizeNodes r.nodes h.nod.toNat))).map fun p =>
          { header := h, nodes := srvNodeCodec.decodeAll h.nod.toNat p.1 } := by
  have hlength : 218 ≤ file.length := by
    rw [heq, List.length_append, length_srvHead]
    omega
  have hopen : (BlockFileReader.atPos file 0).isOpen = true := by
    exact decide_eq_true (show 0 < file.length by omega)
  have hversion : (BlockFileReader.atPos file 0).read 4 =
      some (slice file 0 4, .atPos file 4) := by
    have := BlockFileReader.read_at (p := 0) (w := 4) hfile (by decide) (by omega) (by decide)
    rwa [if_pos (by decide)] at this
  have hdecode : srvHeaderCodec.decode (srvHeaderCodec.encode h) = h := by
    have := srvHeaderCodec.decode_encode h []
    rwa [List.append_nil] at this
  have hreader : ({ fd := some file, fileSize := file.length } : BlockFileReader) =
      .atPos file 0 := rfl
  rw [dataRead]
  simp only [hreader, hopen, hversion, readHeader_eq hfile heq, hdecode, Bool.not_true,
    Option.bind_eq_bind, Option.bind_some, Bool.true_and, bne_iff_ne]
  by_cases hzero : h.nod = 0
  · simp [hzero]
  · simp [hzero, Option.map_eq_bind]

/-- What `data_read` gives when the file has all nodes that the header announces. -/
theorem dataRead_eq (hrest : h.nod.toNat * 128 ≤ rest.length) (hlength : rest.length < 2 ^ 62)
    (r : SrvData) :
    dataRead r true (srvHead h ++ rest) =
      if h.nod = 0 then some { r with header := h }
      else if 214 + h.nod.toNat * 128 < 2 ^ 31 then
        some ⟨h, srvNodeCodec.decodeAll h.nod.toNat (rest.take (h.nod.toNat * 128))⟩
      else none := by
  have hfile : (srvHead h ++ rest).length < 2 ^ 63 := by
    rw [List.length_append, length_srvHead]
    omega
  rw [dataRead_head hfile rfl]
  split
  · rfl
  · rename_i hzero
    obtain ⟨n, hn⟩ : ∃ n, h.nod.toNat = n + 1 := Nat.exists_eq_succ_of_ne_zero fun h0 =>
      hzero (UInt32.toNat_inj.mp h0)
    rw [hn] at hrest ⊢
    rw [readNodes_eq hfile rfl hrest]
    split <;> rfl

/-- The header that the file has in the end. -/
def lastHeader (s : SrvData) (headers : List SrvHeader) : SrvHeader :=
  headers.getLast?.getD s.header

/-- The whole way: the file has the nodes of the first write, and behind them what it held
before. -/
theorem restores_iff (hnod : s.header.nod.toNat ≤ s.nodes.length)
    (headers : List SrvHeader) (r : SrvData) {old : List UInt8}
    (hrest : rest = srvNodeCodec.encodeAll (s.nodes.take s.header.nod.toNat) ++
      old.drop (218 + s.header.nod.toNat * 128))
    (hle : (lastHeader s headers).nod.toNat * 128 ≤ rest.length) (hlength : rest.length < 2 ^ 62) :
    Restores s headers r old ↔
      if (lastHeader s headers).nod = 0 then r.nodes = s.nodes
      else 214 + (lastHeader s headers).nod.toNat * 128 < 2 ^ 31 ∧
        srvNodeCodec.decodeAll (lastHeader s headers).nod.toNat
          (rest.take ((lastHeader s headers).nod.toNat * 128)) = s.nodes := by
  rw [Restores, dataWrite_puts hnod, Option.bind_some, ← hrest]
  change dataRead r true (srvHead (lastHeader s headers) ++ rest) =
    some { s with header := lastHeader s headers } ↔ _
  rw [dataRead_eq hle hlength]
  split
  · simp
  · split <;> rename_i hsmall
    · rw [and_iff_right hsmall]
      simp
    · exact iff_of_false (by simp) fun h => hsmall h.1

/-- A node with another status. -/
def SrvNode.other (n : SrvNode) : SrvNode := { n with status := n.status + 1 }

theorem SrvNode.other_ne (n : SrvNode) : n.other ≠ n := by
  intro h
  have hstatus : n.status + 1 = n.status := congrArg SrvNode.status h
  simp at hstatus

/-- The nodes and the rest of a long file. -/
theorem length_rest (hnod : s.header.nod.toNat ≤ s.nodes.length) {old : List UInt8} {n : Nat}
    (hold : old.length = 218 + n) (hn : s.header.nod.toNat * 128 ≤ n) :
    (srvNodeCodec.encodeAll (s.nodes.take s.header.nod.toNat) ++
      old.drop (218 + s.header.nod.toNat * 128)).length = n := by
  have hwidth : srvNodeCodec.width = 128 := rfl
  rw [List.length_append, Codec.length_encodeAll, List.length_take_of_le hnod, List.length_drop,
    hold, hwidth]
  omega

/-- Nodes that are not written come from the old content of the file. -/
theorem not_restores_of_lt (hlt : s.header.nod.toNat < s.nodes.length) {headers : List SrvHeader}
    (hlast : (lastHeader s headers).nod.toNat = s.nodes.length)
    (hsmall : 214 + s.nodes.length * 128 < 2 ^ 31) (r : SrvData) :
    ¬ Restores s headers r
      (List.replicate 218 0 ++ srvNodeCodec.encodeAll (s.nodes.map SrvNode.other)) := by
  have hwidth : srvNodeCodec.width = 128 := rfl
  let written := s.nodes.take s.header.nod.toNat ++
    (s.nodes.map SrvNode.other).drop s.header.nod.toNat
  have hlength : written.length = s.nodes.length := by
    simp only [written, List.length_append, List.length_take, List.length_drop, List.length_map]
    omega
  have hrest : srvNodeCodec.encodeAll written =
      srvNodeCodec.encodeAll (s.nodes.take s.header.nod.toNat) ++
        (List.replicate 218 0 ++ srvNodeCodec.encodeAll (s.nodes.map SrvNode.other)).drop
          (218 + s.header.nod.toNat * 128) := by
    rw [Codec.encodeAll_append, ← List.drop_drop, List.drop_left' List.length_replicate, ← hwidth,
      Codec.drop_encodeAll _ _ (by rw [List.length_map]; exact hlt.le)]
  have hbytes : (srvNodeCodec.encodeAll written).length = s.nodes.length * 128 := by
    rw [Codec.length_encodeAll, hlength, hwidth]
  have hzero : (lastHeader s headers).nod ≠ 0 := by
    intro h
    rw [h] at hlast
    have : s.nodes.length = 0 := hlast.symm
    omega
  rw [restores_iff hlt.le headers r hrest (by rw [hbytes, hlast]) (by omega), if_neg hzero, hlast,
    ← hbytes, List.take_length]
  rintro ⟨-, hdecode⟩
  have hread := srvNodeCodec.decodeAll_encodeAll written []
  rw [List.append_nil, hlength, hdecode] at hread
  -- The nodes from the first one that is not written are others.
  have hdrop : s.nodes.drop s.header.nod.toNat =
      (s.nodes.drop s.header.nod.toNat).map SrvNode.other := by
    have htake : (s.nodes.take s.header.nod.toNat).length = s.header.nod.toNat :=
      List.length_take_of_le hlt.le
    conv_lhs => rw [hread]
    rw [List.drop_left' htake, List.map_drop]
  rw [List.drop_eq_getElem_cons hlt, List.map_cons] at hdrop
  exact SrvNode.other_ne _ (List.cons.inj hdrop).1.symm

/-- The header and all nodes come back, whatever the reader and the file held before, exactly
when there are nodes, the field `nod` counts them in the object and in the last header written
over it, and the file is short enough for the positions of the reader. -/
theorem servers_restores_iff (s : SrvData) (headers : List SrvHeader) :
    (∀ (r : SrvData) (old : List UInt8), old.length < 2 ^ 61 → Restores s headers r old) ↔
      s.nodes ≠ [] ∧ s.header.nod.toNat = s.nodes.length ∧
        (lastHeader s headers).nod.toNat = s.nodes.length ∧
        214 + s.nodes.length * 128 < 2 ^ 31 := by
  have hwidth : srvNodeCodec.width = 128 := rfl
  constructor
  · intro hall
    have hnod : s.header.nod.toNat ≤ s.nodes.length := by
      by_contra hlt
      have hwrite := hall {} [] (by decide)
      rw [Restores, dataWrite, if_pos rfl, if_pos (Nat.not_le.mp hlt)] at hwrite
      cases hwrite
    -- A long file has room for any number of nodes.
    obtain ⟨old, hold⟩ : ∃ old : List UInt8, old.length = 218 + 2 ^ 40 :=
      ⟨List.replicate _ 0, List.length_replicate⟩
    have hwritten := s.header.nod.toNat_lt
    have hlt := (lastHeader s headers).nod.toNat_lt
    have hrest := length_rest hnod hold (by omega)
    have hzeros (r : SrvData) := (restores_iff hnod headers r rfl
      (by omega) (by omega)).mp (hall r old (by omega))
    by_cases hzero : (lastHeader s headers).nod = 0
    · have hnone := hzeros {}
      have hone := hzeros { nodes := [{}] }
      rw [if_pos hzero] at hnone hone
      cases hnone.trans hone.symm
    · have hread := hzeros {}
      rw [if_neg hzero] at hread
      have hlast : (lastHeader s headers).nod.toNat = s.nodes.length := by
        rw [← hread.2, Codec.length_decodeAll]
      refine ⟨?_, ?_, hlast, hlast ▸ hread.1⟩
      · intro hnil
        rw [hnil] at hlast
        exact hzero (UInt32.toNat_inj.mp hlast)
      · refine le_antisymm hnod (Nat.not_lt.mp fun hless => ?_)
        refine not_restores_of_lt hless hlast (hlast ▸ hread.1) {} (hall {} _ ?_)
        rw [List.length_append, Codec.length_encodeAll, List.length_map, List.length_replicate,
          hwidth, ← hlast]
        omega
  · rintro ⟨hne, hnod, hlast, hsmall⟩ r old hold
    have htake : s.nodes.take s.header.nod.toNat = s.nodes := by
      rw [hnod, List.take_length]
    have hlen : (srvNodeCodec.encodeAll s.nodes).length = s.nodes.length * 128 :=
      srvNodeCodec.length_encodeAll s.nodes
    have hzero : (lastHeader s headers).nod ≠ 0 := by
      intro h
      rw [h] at hlast
      exact hne (List.length_eq_zero_iff.mp hlast.symm)
    rw [restores_iff (Nat.le_of_eq hnod) headers r rfl, if_neg hzero, hlast, htake,
      List.take_left' hlen]
    · refine ⟨hsmall, ?_⟩
      have := srvNodeCodec.decodeAll_encodeAll s.nodes []
      rwa [List.append_nil] at this
    · rw [hlast, htake, List.length_append, hlen]
      omega
    · rw [htake, List.length_append, hlen, List.length_drop]
      omega

/-- A table of one node with the field `nod` still 0, as a new network is written: the file
has no node. -/
theorem servers_not_restored :
    ((dataWrite { nodes := [{ users := 1 }] } true []).bind (headerPuts [])).bind
        (dataRead {} true) = some {} ∧
      ¬ Restores { nodes := [{ users := 1 }] } [] {} [] := by
  have hread : ((dataWrite { nodes := [{ users := 1 }] } true []).bind (headerPuts [])).bind
      (dataRead {} true) = some {} := by
    decide +kernel
  refine ⟨hread, ?_⟩
  rw [Restores, hread]
  decide

end Esc
