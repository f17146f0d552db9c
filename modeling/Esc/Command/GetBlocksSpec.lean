import Esc.Command.GetBlocks

/-!
# The client accepts the blocks it asked for

In a valid store the headers that the handler collects are consecutive, all but the last
have the VIP keys of the block before the first, and the last has more than half of their
votes. The client checks just that, if it reads the same parts that the handler has sent:
the range and its rounding agree on the first keys, the client knows the block before the
range, and a block with new VIP keys has enough votes.
-/

namespace Esc

open Lib

variable {c : Crypto} {store : BlockStore} {first t : UInt32} {keys : List VipKey}
  {pre : List VotedHeader} {block h header : VotedHeader}

section Stream

variable {rest : List UInt8}

theorem readNumber_bytesLE {n : Nat} (h : n < 2 ^ 32) (rest : List UInt8) :
    readNumber (bytesLE 4 n ++ rest) = some (n, rest) := by
  have hmod : n % 256 ^ 4 = n := Nat.mod_eq_of_lt (by omega)
  unfold readNumber
  rw [readData_append rest (length_bytesLE 4 n), Option.map_some]
  dsimp only
  rw [ofLE_bytesLE, hmod]

theorem readKeys_encodeAll (keys : List VipKey) (rest : List UInt8) :
    readKeys (34 * keys.length) (vipKeyCodec.encodeAll keys ++ rest) = some (keys, rest) := by
  have hlength : (vipKeyCodec.encodeAll keys).length = 34 * keys.length := by
    rw [Codec.length_encodeAll, Nat.mul_comm]
    rfl
  have hdecode := vipKeyCodec.decodeAll_encodeAll keys []
  rw [List.append_nil] at hdecode
  unfold readKeys
  rw [readData_append rest hlength, Option.map_some, Nat.mul_div_cancel_left _ (by omega)]
  dsimp only
  rw [hdecode]

theorem receiveFirstVipKeys_keysBytes (hne : keys ≠ []) (hsmall : 34 * keys.length < 2 ^ 32)
    (rest : List UInt8) :
    receiveFirstVipKeys (keysBytes keys ++ rest) = some (keys, rest) := by
  have hpos : 0 < keys.length := List.length_pos_iff.mpr hne
  unfold receiveFirstVipKeys keysBytes
  rw [List.append_assoc, readNumber_bytesLE hsmall]
  simp only [Option.bind_eq_bind, Option.bind_some]
  rw [if_neg (by omega), readKeys_encodeAll]

theorem receiveHeaders_headerBytes {headers : List VotedHeader} (flag : UInt8)
    (hsmall : headers.length < 2 ^ 32) (rest : List UInt8) :
    receiveHeaders (bytesLE 4 headers.length ++ (headerCodec.encodeAll headers ++ flag :: rest)) =
      some (headers, rest) := by
  unfold receiveHeaders
  rw [readNumber_bytesLE hsmall]
  simp only [Option.bind_eq_bind, Option.bind_some, headerCodec.readAll_encodeAll]
  rw [show flag :: rest = [flag] ++ rest from rfl,
    readData_append rest (show [flag].length = 1 from rfl)]
  rfl

theorem receiveSignatures_encodeAll {signatures : List VipSignature}
    (hsmall : signatures.length < 2 ^ 32) (rest : List UInt8) :
    receiveSignatures (bytesLE 4 signatures.length ++
      (signatureCodec.encodeAll signatures ++ rest)) = some (signatures, rest) := by
  unfold receiveSignatures
  rw [readNumber_bytesLE hsmall]
  exact signatureCodec.readAll_encodeAll signatures rest

theorem receiveNewVipKeys_nil (viphash : Hash) :
    receiveNewVipKeys c viphash (bytesLE 4 0) = some [] := by
  unfold receiveNewVipKeys
  rw [← List.append_nil (bytesLE 4 0), readNumber_bytesLE (by norm_num)]
  rfl

theorem receiveNewVipKeys_keysBytes {viphash : Hash} (hsmall : 34 * keys.length < 2 ^ 32)
    (hhash : vipKeysHash c keys = viphash) :
    receiveNewVipKeys c viphash (keysBytes keys) = some [] := by
  unfold receiveNewVipKeys keysBytes
  rw [readNumber_bytesLE hsmall]
  simp only [Option.bind_eq_bind, Option.bind_some]
  split
  · rename_i hzero
    have hnil : keys = [] := List.eq_nil_of_length_eq_zero (by omega)
    subst hnil
    rfl
  · rw [← List.append_nil (vipKeyCodec.encodeAll keys), readKeys_encodeAll]
    simp only [Option.bind_some, hhash, if_true]
    rfl

end Stream

/-- What the client needs of a response with headers. -/
structure BlocksResponse.Accepted (c : Crypto) (r : BlocksResponse) (anchor : Anchor)
    (last : VotedHeader) : Prop where
  chain : validateChain c anchor.viphash anchor.oldhash r.headers = true
  signed : validateLastBlock c anchor.keys last.toHeader r.signatures = true
  newKeys : r.newVipKeys ≠ [] → vipKeysHash c r.newVipKeys = last.viphash

/-- The numbers in a response fit into four bytes. -/
structure BlocksResponse.Small (r : BlocksResponse) : Prop where
  first : 34 * r.firstVipKeys.length < 2 ^ 32
  headers : r.headers.length < 2 ^ 32
  signatures : r.signatures.length < 2 ^ 32
  newKeys : 34 * r.newVipKeys.length < 2 ^ 32

/-- The client finds an anchor for the headers of a response and accepts them. -/
def BlocksResponse.AcceptedBy (c : Crypto) (client : BlocksClient) (fromTime toTime : UInt32)
    (r : BlocksResponse) : Prop :=
  ∀ first last, r.headers.head? = some first → r.headers.getLast? = some last →
    ∃ anchor, loadLastHeader c client first
        (if wantsFirstKeys fromTime toTime then some r.firstVipKeys else none) = some anchor ∧
      r.Accepted c anchor last

/-- The client reads a response to its end and accepts it, if it expects the first keys just
when they are there and the headers pass its checks. -/
theorem getBlocksSend_response {client : BlocksClient} {fromTime toTime : UInt32}
    {r : BlocksResponse} (hsmall : r.Small)
    (hwants : wantsFirstKeys fromTime toTime = true ↔ r.firstVipKeys ≠ [])
    (haccept : r.AcceptedBy c client fromTime toTime) :
    getBlocksSend c client fromTime toTime (responseBytes (.ok r)) = some [] := by
  have hfirst : receiveWantedKeys fromTime toTime
      ((if r.firstVipKeys = [] then [] else keysBytes r.firstVipKeys) ++ r.headerBytes) =
      some (if wantsFirstKeys fromTime toTime then some r.firstVipKeys else none,
        r.headerBytes) := by
    unfold receiveWantedKeys
    by_cases hkeys : r.firstVipKeys = []
    · have hnot : ¬ wantsFirstKeys fromTime toTime = true := fun h => hwants.mp h hkeys
      rw [if_neg hnot, if_pos hkeys, if_neg hnot, List.nil_append]
    · rw [if_pos (hwants.mpr hkeys), if_neg hkeys, if_pos (hwants.mpr hkeys),
        receiveFirstVipKeys_keysBytes hkeys hsmall.first]
      rfl
  unfold getBlocksSend responseBytes
  rw [readNumber_bytesLE (by norm_num)]
  simp only [Option.bind_eq_bind, Option.bind_some, ne_eq, not_true_eq_false, if_false]
  rw [hfirst]
  simp only [Option.bind_some, BlocksResponse.headerBytes,
    receiveHeaders_headerBytes _ hsmall.headers]
  split
  · rename_i first last hhead hlast
    obtain ⟨anchor, hanchor, hchain, hsigned, hnew⟩ := haccept first last hhead hlast
    have hne : r.headers ≠ [] := by
      intro hnil
      rw [hnil] at hhead
      cases hhead
    rw [hanchor, BlocksResponse.lastBytes, if_neg hne, Option.bind_some,
      receiveSignatures_encodeAll hsmall.signatures]
    have hkeys : receiveNewVipKeys c last.viphash
        (if r.newVipKeys = [] then bytesLE 4 0 else keysBytes r.newVipKeys) = some [] := by
      split
      · exact receiveNewVipKeys_nil _
      · rename_i hkeys
        exact receiveNewVipKeys_keysBytes hsmall.newKeys (hnew hkeys)
    simp only [Option.bind_some, hkeys, hchain, hsigned]
    rfl
  · rename_i hnone
    have hnil : r.headers = [] := by
      cases hheaders : r.headers with
      | nil => rfl
      | cons h hs =>
          rw [hheaders] at hnone
          exact absurd (List.getLast?_eq_some_getLast (List.cons_ne_nil h hs)) (hnone h _ rfl)
    rw [BlocksResponse.lastBytes, if_pos hnil]
    rfl

/-- The VIP keys that sign a block: those of the block before, or its own at the start of the
store. -/
def BlockStore.signerHash (store : BlockStore) (h : VotedHeader) : Hash :=
  match store.header (h.now - blockSec) with
  | some p => p.viphash
  | none => h.viphash

/-- A stored chain with its signatures and key files. Times stay away from both ends of the
32-bit range. -/
structure BlockStore.Valid (c : Crypto) (store : BlockStore) : Prop where
  start : blockSec < store.start
  now : ∀ t h, t ≠ 0 → store.header t = some h → h.now = t
  bounded : ∀ t h, t ≠ 0 → store.header t = some h → t.toNat + blockSec.toNat < 2 ^ 32
  nowhash : ∀ t h, t ≠ 0 → store.header t = some h → h.nowhash = h.hashnow c
  linked : ∀ t p h, t ≠ 0 → store.header t = some p → store.header (t + blockSec) = some h →
    h.oldhash = p.nowhash
  vip : ∀ t h, t ≠ 0 → store.header t = some h → ∃ keys, store.vip h.viphash = some keys ∧
    keys ≠ [] ∧ vipKeysHash c keys = h.viphash ∧ 34 * keys.length < 2 ^ 32
  signatures : ∀ t h, t ≠ 0 → store.header t = some h →
    (store.signatures t).length = h.vok.toNat
  signed : ∀ t h keys, t ≠ 0 → store.header t = some h →
    store.vip (store.signerHash h) = some keys →
    ∀ s ∈ store.signatures t, s.valid c keys h.toHeader

/-- Consecutive stored headers from a time on. -/
def BlockStore.StoredFrom (store : BlockStore) : UInt32 → List VotedHeader → Prop
  | _, [] => True
  | t, h :: hs => t ≠ 0 ∧ store.header t = some h ∧ store.StoredFrom (t + blockSec) hs

/-- The time `n` blocks later. -/
def blocksAfter (t : UInt32) : Nat → UInt32
  | 0 => t
  | n + 1 => blocksAfter t n + blockSec

section Stored

variable {hs' : List VotedHeader}

theorem blocksAfter_succ (t : UInt32) (n : Nat) :
    blocksAfter (t + blockSec) n = blocksAfter t (n + 1) := by
  induction n with
  | zero => simp only [blocksAfter]
  | succ n ih =>
      rw [blocksAfter, ih]
      simp only [blocksAfter]

theorem BlockStore.StoredFrom.append (hs : store.StoredFrom t hs')
    (hne : blocksAfter t hs'.length ≠ 0) (hh : store.header (blocksAfter t hs'.length) = some h) :
    store.StoredFrom t (hs' ++ [h]) := by
  induction hs' generalizing t with
  | nil => exact ⟨hne, hh, trivial⟩
  | cons h' hs' ih =>
      obtain ⟨ht, hget, hrest⟩ := hs
      rw [List.length_cons, ← blocksAfter_succ] at hne hh
      exact ⟨ht, hget, ih hrest hne hh⟩

theorem BlockStore.StoredFrom.append_left {good bad : List VotedHeader}
    (hs : store.StoredFrom t (good ++ bad)) : store.StoredFrom t good := by
  induction good generalizing t with
  | nil => trivial
  | cons h good ih =>
      obtain ⟨ht, hget, hrest⟩ := hs
      exact ⟨ht, hget, ih hrest⟩

/-- The last of consecutive headers with its time, and the one before it. -/
theorem BlockStore.StoredFrom.last (hs : store.StoredFrom t (pre ++ [h])) :
    blocksAfter t pre.length ≠ 0 ∧ store.header (blocksAfter t pre.length) = some h ∧
      (pre = [] ∨ ∃ p, p ∈ pre ∧ ∃ n, pre.length = n + 1 ∧ blocksAfter t n ≠ 0 ∧
        store.header (blocksAfter t n) = some p) := by
  induction pre generalizing t with
  | nil => exact ⟨hs.1, hs.2.1, Or.inl rfl⟩
  | cons p pre ih =>
      obtain ⟨ht, hget, hrest⟩ := hs
      obtain ⟨hne, hlast, hbefore⟩ := ih hrest
      rw [blocksAfter_succ] at hne hlast
      refine ⟨hne, hlast, Or.inr ?_⟩
      obtain rfl | ⟨p', hp', n, hn, hne', hget'⟩ := hbefore
      · exact ⟨p, List.mem_cons_self, 0, rfl, ht, hget⟩
      · rw [blocksAfter_succ] at hne' hget'
        exact ⟨p', List.mem_cons_of_mem _ hp', n + 1, by rw [List.length_cons, hn], hne', hget'⟩

/-- Times of stored headers do not wrap. -/
theorem BlockStore.Valid.toNat_blocksAfter (hvalid : store.Valid c) (hs : store.StoredFrom t hs') :
    (blocksAfter t hs'.length).toNat = t.toNat + blockSec.toNat * hs'.length := by
  induction hs' generalizing t with
  | nil => rfl
  | cons h hs' ih =>
      obtain ⟨ht, hget, hrest⟩ := hs
      have hlt := hvalid.bounded t h ht hget
      have hadd : (t + blockSec).toNat = t.toNat + blockSec.toNat := by
        rw [UInt32.toNat_add]
        exact Nat.mod_eq_of_lt hlt
      have hnext := ih hrest
      rw [blocksAfter_succ, hadd] at hnext
      rw [List.length_cons, hnext, Nat.mul_add]
      omega

end Stored

/-- The stored blocks of a range, up to the first one with other VIP keys. -/
def BlockStore.rangeFrom (store : BlockStore) (viphash : Hash) (upto : UInt32) :
    Nat → UInt32 → List VotedHeader
  | 0, _ => []
  | n + 1, t =>
      if t ≤ upto then
        match store.header t with
        | none => []
        | some h =>
            if h.viphash = viphash then h :: store.rangeFrom viphash upto n (t + blockSec) else [h]
      else []

theorem BlockStore.tooFewVotes_congr (store : BlockStore) {p p' : VotedHeader}
    (h : p.viphash = p'.viphash) (block : VotedHeader) :
    store.tooFewVotes p block = store.tooFewVotes p' block := by
  unfold BlockStore.tooFewVotes
  rw [h]

theorem readDataFromHeaderFile_of_none (hget : store.header block.now = none) :
    store.readDataFromHeaderFile block = (false, block) := by
  unfold BlockStore.readDataFromHeaderFile
  rw [hget]

theorem readDataFromHeaderFile_of_some (hvalid : store.Valid c) (hne : block.now ≠ 0)
    (hget : store.header block.now = some h) :
    store.readDataFromHeaderFile block = (true, h) := by
  have hnow := hvalid.now _ _ hne hget
  unfold BlockStore.readDataFromHeaderFile
  rw [hget]
  simp [hnow, hne]

/-- What holds in the loop of `readBlockHeaders`. -/
structure HeaderLoop.Scan (store : BlockStore) (first : UInt32) (header : VotedHeader)
    (r : HeaderLoop) : Prop where
  stored : store.StoredFrom first r.headers
  next : r.block.now = blocksAfter first r.headers.length
  header_eq : r.header = r.headers.getLast?.getD header
  plain : r.newviphash = false → ∀ h ∈ r.headers, h.viphash = header.viphash
  changed : r.newviphash = true → ∃ pre h, r.headers = pre ++ [h] ∧
    (∀ h' ∈ pre, h'.viphash = header.viphash) ∧ h.viphash ≠ header.viphash ∧
      r.block.viphash = h.viphash ∧ r.upto = h.now
  valid : ∃ good bad, r.headers = good ++ bad ∧ bad.length = r.invalidCounter ∧
    (∀ h ∈ bad, store.tooFewVotes header h = true) ∧ (good = [] → r.lastValid = 0) ∧
      ∀ pre h, good = pre ++ [h] → r.lastValid = h.now ∧ store.tooFewVotes header h = false

namespace HeaderLoop.Scan

variable {r : HeaderLoop}

theorem header_viphash (h : r.Scan store first header) (hplain : r.newviphash = false) :
    r.header.viphash = header.viphash := by
  rw [h.header_eq]
  cases hlast : r.headers.getLast? with
  | none => rfl
  | some last => exact h.plain hplain last (List.mem_of_getLast? hlast)

theorem next_ne_zero (hvalid : store.Valid c) (hfirst : first ≠ 0) (h : r.Scan store first header) :
    r.block.now ≠ 0 := by
  intro hzero
  have htime := hvalid.toNat_blocksAfter h.stored
  rw [← h.next, hzero, UInt32.toNat_zero] at htime
  exact hfirst (UInt32.toNat_inj.mp (by rw [UInt32.toNat_zero]; omega))

/-- The flag for new keys after one more block. -/
theorem newviphash_add (h : r.Scan store first header) (hplain : r.newviphash = false)
    (block : VotedHeader) :
    (r.add store block).newviphash = decide (header.viphash ≠ block.viphash) := by
  rw [← h.header_viphash hplain, HeaderLoop.add, hplain, Bool.false_or]

/-- The blocks with too few votes at the end, after one more block. -/
theorem valid_add (h : r.Scan store first header) (hplain : r.newviphash = false)
    (block : VotedHeader) :
    ∃ good bad, r.headers ++ [block] = good ++ bad ∧
      bad.length = (r.add store block).invalidCounter ∧
      (∀ h ∈ bad, store.tooFewVotes header h = true) ∧
      (good = [] → (r.add store block).lastValid = 0) ∧
      ∀ pre h, good = pre ++ [h] →
        (r.add store block).lastValid = h.now ∧ store.tooFewVotes header h = false := by
  have hvotes := store.tooFewVotes_congr (h.header_viphash hplain) block
  have hcounter : (r.add store block).invalidCounter =
      if store.tooFewVotes header block then r.invalidCounter + 1 else 0 := by rw [← hvotes]; rfl
  have hlastValid : (r.add store block).lastValid =
      if store.tooFewVotes header block then r.lastValid else block.now := by rw [← hvotes]; rfl
  obtain ⟨good, bad, hheaders, hbad, hfew, hgood, hlast⟩ := h.valid
  by_cases htoo : store.tooFewVotes header block = true
  · rw [if_pos htoo] at hcounter hlastValid
    refine ⟨good, bad ++ [block], by rw [hheaders, List.append_assoc], ?_, ?_, ?_, ?_⟩
    · rw [hcounter, List.length_append, hbad, List.length_singleton]
    · intro h' hmem
      rcases List.mem_append.mp hmem with hmem | hmem
      · exact hfew h' hmem
      · rwa [List.mem_singleton.mp hmem]
    · rwa [hlastValid]
    · rwa [hlastValid]
  · rw [if_neg htoo] at hcounter hlastValid
    refine ⟨r.headers ++ [block], [], (List.append_nil _).symm, hcounter.symm, ?_, ?_, ?_⟩
    · exact fun _ hmem => absurd hmem List.not_mem_nil
    · exact fun hnil => absurd hnil (by simp)
    · intro pre h' happend
      obtain ⟨-, hsame⟩ := List.append_inj' happend rfl
      cases hsame
      exact ⟨hlastValid, by simpa using htoo⟩

theorem add (hvalid : store.Valid c) (hfirst : first ≠ 0) (h : r.Scan store first header)
    (hplain : r.newviphash = false) (hget : store.header r.block.now = some block) :
    (r.add store block).Scan store first header := by
  have hne := h.next_ne_zero hvalid hfirst
  have hnow : block.now = r.block.now := hvalid.now _ _ hne hget
  have hflag := h.newviphash_add hplain block
  refine ⟨h.stored.append (h.next ▸ hne) (h.next ▸ hget), ?_, ?_, ?_, ?_, h.valid_add hplain block⟩
  · show block.now + blockSec = blocksAfter first (r.headers ++ [block]).length
    rw [hnow, h.next, List.length_append, List.length_singleton, blocksAfter]
  · show block = (r.headers ++ [block]).getLast?.getD header
    simp
  · intro hplain'
    rw [hflag, decide_eq_false_iff_not, not_not] at hplain'
    intro h' hmem
    rcases List.mem_append.mp hmem with hmem | hmem
    · exact h.plain hplain h' hmem
    · rw [List.mem_singleton.mp hmem, hplain']
  · intro hchanged
    rw [hflag, decide_eq_true_eq] at hchanged
    refine ⟨r.headers, block, rfl, h.plain hplain, hchanged.symm, rfl, if_pos ?_⟩
    rwa [h.header_viphash hplain]

/-- After a block with new keys the next block is behind the range. -/
theorem plain_of_le (hvalid : store.Valid c) (h : r.Scan store first header)
    (hle : r.block.now ≤ r.upto) : r.newviphash = false := by
  by_contra hchanged
  obtain ⟨pre, last, hheaders, -, -, -, hupto⟩ := h.changed (by simpa using hchanged)
  have hstored := h.stored
  rw [hheaders] at hstored
  obtain ⟨hne', hlast, -⟩ := hstored.last
  have htime := hvalid.toNat_blocksAfter h.stored
  have htime' := hvalid.toNat_blocksAfter hstored.append_left
  rw [← h.next, hheaders, List.length_append, List.length_singleton] at htime
  rw [hupto, hvalid.now _ _ hne' hlast, UInt32.le_iff_toNat_le, htime, htime', Nat.mul_add] at hle
  have hpos : 0 < blockSec.toNat := by decide
  omega

/-- The whole loop adds the blocks of the range. -/
theorem run (hvalid : store.Valid c) (hfirst : first ≠ 0) (n : Nat)
    (h : r.Scan store first header) :
    (HeaderLoop.run store n r).Scan store first header ∧
      (HeaderLoop.run store n r).headers = r.headers ++
        if r.newviphash then [] else store.rangeFrom header.viphash r.upto n r.block.now := by
  induction n generalizing r with
  | zero => exact ⟨h, by simp [HeaderLoop.run, BlockStore.rangeFrom]⟩
  | succ n ih =>
      rw [HeaderLoop.run]
      split
      · rename_i hle
        have hplain := h.plain_of_le hvalid hle
        have hne := h.next_ne_zero hvalid hfirst
        have hflag₀ : ¬ r.newviphash = true := by simp [hplain]
        rw [if_neg hflag₀, BlockStore.rangeFrom, if_pos hle]
        cases hget : store.header r.block.now with
        | none =>
            rw [readDataFromHeaderFile_of_none hget]
            exact ⟨h, by simp⟩
        | some block =>
            rw [readDataFromHeaderFile_of_some hvalid hne hget]
            have hadd := h.add hvalid hfirst hplain hget
            have hflag := h.newviphash_add hplain block
            obtain ⟨hscan, hheaders⟩ := ih hadd
            refine ⟨hscan, hheaders.trans ?_⟩
            have hstep : (r.add store block).headers = r.headers ++ [block] := rfl
            rw [hstep, hflag, List.append_assoc]
            by_cases hsame : block.viphash = header.viphash
            · have hupto : (r.add store block).upto = r.upto :=
                if_neg (by rw [h.header_viphash hplain, hsame]; simp)
              have hnext : (r.add store block).block.now = r.block.now + blockSec :=
                congrArg (· + blockSec) (hvalid.now _ _ hne hget)
              simp [hsame, hupto, hnext]
            · simp [hsame, Ne.symm hsame]
      · rename_i hgt
        refine ⟨h, ?_⟩
        rw [BlockStore.rangeFrom, if_neg hgt, ite_self, List.append_nil]

end HeaderLoop.Scan

/-- Dropping what satisfies `p` at the end of a list. -/
theorem rdropWhile_append {α : Type*} {p : α → Bool} {good bad : List α}
    (hbad : ∀ a ∈ bad, p a = true) (hgood : ∀ pre a, good = pre ++ [a] → p a = false) :
    (good ++ bad).rdropWhile p = good := by
  induction bad using List.reverseRecOn with
  | nil =>
      rw [List.append_nil, List.rdropWhile_eq_self_iff]
      intro hne hlast
      have hfalse := hgood good.dropLast (good.getLast hne) (List.dropLast_append_getLast hne).symm
      rw [hlast] at hfalse
      cases hfalse
  | append_singleton bad a ih =>
      rw [← List.append_assoc, List.rdropWhile_concat_pos _ _ _ (hbad a (by simp))]
      exact ih fun a' ha' => hbad a' (List.mem_append_left _ ha')

/-- The headers that the handler sends: the blocks of the range without those at its end
that have too few votes. -/
structure BlockStore.Collected (store : BlockStore) (first : UInt32) (header : VotedHeader)
    (range : List VotedHeader) (r : HeaderLoop) : Prop where
  headers : r.headers = range.rdropWhile (store.tooFewVotes header)
  stored : store.StoredFrom first r.headers
  none : r.headers = [] → r.block.now = 0
  same : ∀ pre last, r.headers = pre ++ [last] → ∀ h ∈ pre, h.viphash = header.viphash
  last : ∀ pre last, r.headers = pre ++ [last] →
    r.block.now = last.now ∧ store.tooFewVotes header last = false
  newKeys : (∀ h ∈ range, h.viphash ≠ header.viphash → store.tooFewVotes header h = false) →
    ∀ pre last, r.headers = pre ++ [last] → r.newviphash = true → r.block.viphash = last.viphash

/-- The end of `readBlockHeaders`, after the loop. -/
theorem HeaderLoop.Scan.collected {r : HeaderLoop} (h : r.Scan store first header) :
    store.Collected first header r.headers { r with
      block := { r.block with now := r.lastValid }
      headers := r.headers.take (r.headers.length - r.invalidCounter) } := by
  obtain ⟨good, bad, hheaders, hbad, hfew, hgood, hlast⟩ := h.valid
  have htake : r.headers.take (r.headers.length - r.invalidCounter) = good := by
    rw [hheaders, ← hbad, List.length_append, Nat.add_sub_cancel, List.take_left]
  have hdrop : r.headers.rdropWhile (store.tooFewVotes header) = good := by
    rw [hheaders]
    exact rdropWhile_append hfew fun pre h' hsplit => (hlast pre h' hsplit).2
  have hstored := h.stored
  rw [hheaders] at hstored
  rw [htake]
  refine ⟨hdrop.symm, hstored.append_left, hgood, ?_, hlast, ?_⟩
  · intro pre last hsplit h' hmem
    replace hsplit : good = pre ++ [last] := hsplit
    cases hnew : r.newviphash with
    | false =>
        apply h.plain hnew
        rw [hheaders, hsplit]
        exact List.mem_append_left _ (List.mem_append_left _ hmem)
    | true =>
        obtain ⟨pre', last', hheaders', hpre, -⟩ := h.changed hnew
        rw [hheaders', hsplit, List.append_assoc, List.singleton_append] at hheaders
        have hdropLast := congrArg List.dropLast hheaders
        rw [List.dropLast_concat,
          List.dropLast_append_of_ne_nil (List.cons_ne_nil _ _)] at hdropLast
        apply hpre
        rw [hdropLast]
        exact List.mem_append_left _ hmem
  · intro hchanges pre last hsplit hnew
    replace hsplit : good = pre ++ [last] := hsplit
    obtain ⟨pre', last', hheaders', -, hne, hblock, -⟩ := h.changed hnew
    have hvoted := hchanges last' (by rw [hheaders']; simp) hne
    have hnil : bad = [] := by
      rcases List.eq_nil_or_concat bad with hnil | ⟨bad', a, hconcat⟩
      · exact hnil
      · rw [List.concat_eq_append] at hconcat
        rw [hconcat, ← List.append_assoc, hheaders'] at hheaders
        obtain ⟨-, hsame⟩ := List.append_inj' hheaders rfl
        cases hsame
        have htrue := hfew last' (by rw [hconcat]; simp)
        rw [hvoted] at htrue
        cases htrue
    rw [hnil, List.append_nil, hsplit, hheaders'] at hheaders
    obtain ⟨-, hsame⟩ := List.append_inj' hheaders rfl
    cases hsame
    exact hblock

theorem readBlockHeaders_collected (hvalid : store.Valid c) (hfirst : first ≠ 0) (upto : UInt32)
    (header block : VotedHeader) :
    store.Collected first header
      (store.rangeFrom header.viphash upto ((upto.toNat - first.toNat) / blockSec.toNat + 1) first)
      (readBlockHeaders store first upto header block) := by
  have hinit : HeaderLoop.Scan store first header
      { upto := upto, header := header, block := { block with now := first } } :=
    ⟨trivial, rfl, rfl, fun _ _ h => absurd h List.not_mem_nil,
      fun h => absurd h Bool.false_ne_true, [], [], rfl, rfl,
      fun _ h => absurd h List.not_mem_nil, fun _ => rfl,
      fun pre h happend => absurd happend (by simp)⟩
  obtain ⟨hscan, hheaders⟩ := hinit.run hvalid hfirst
    ((upto.toNat - first.toNat) / blockSec.toNat + 1)
  rw [List.nil_append, if_neg Bool.false_ne_true] at hheaders
  rw [← hheaders]
  exact hscan.collected

/-- Consecutive stored headers pass the chain check. -/
theorem validateChain_stored (hvalid : store.Valid c) {viphash oldhash : Hash} {last : VotedHeader}
    (hstored : store.StoredFrom t (pre ++ [last])) (hsame : ∀ h ∈ pre, h.viphash = viphash)
    (hold : ∀ h, store.header t = some h → h.oldhash = oldhash) :
    validateChain c viphash oldhash (pre ++ [last]) = true := by
  induction pre generalizing t oldhash with
  | nil =>
      obtain ⟨hne, hget, -⟩ := hstored
      simp [validateChain, hold last hget, ← hvalid.nowhash t last hne hget]
  | cons h pre ih =>
      obtain ⟨hne, hget, hrest⟩ := hstored
      have htail := ih hrest (fun h' hh' => hsame h' (List.mem_cons_of_mem _ hh'))
        fun h' hget' => hvalid.linked t h h' hne hget hget'
      simp [validateChain, hsame h List.mem_cons_self, hold h hget,
        ← hvalid.nowhash t h hne hget, htail]

theorem size_keyMap_le (keys : List VipKey) : (keyMap keys).size ≤ keys.length := by
  suffices hgen : ∀ m : Map UInt16 Hash,
      (keys.foldl (fun m k => m.insert k.svid k.key) m).size ≤ m.size + keys.length by
    simpa [keyMap] using hgen ∅
  induction keys with
  | nil => exact fun m => le_rfl
  | cons k keys ih =>
      intro m
      have hinsert : (m.insert k.svid k.key).size ≤ m.size + 1 := Std.ExtTreeMap.size_insert_le
      have hrest := ih (m.insert k.svid k.key)
      rw [List.foldl_cons, List.length_cons]
      omega

/-- The signatures of a block with enough votes pass the check of the last block. -/
theorem validateLastBlock_stored (hvalid : store.Valid c) {last : VotedHeader} (hne : last.now ≠ 0)
    (hget : store.header last.now = some last) (hkeys : store.vip header.viphash = some keys)
    (hsigner : store.signerHash last = header.viphash)
    (hvotes : store.tooFewVotes header last = false) :
    validateLastBlock c keys last.toHeader (store.signatures last.now) = true := by
  have hlength := hvalid.signatures _ _ hne hget
  have hall := hvalid.signed _ _ keys hne hget (hsigner ▸ hkeys)
  have hfilter : (store.signatures last.now).filter (VipSignature.valid c keys last.toHeader) =
      store.signatures last.now := List.filter_eq_self.mpr hall
  have hsize := size_keyMap_le keys
  have hmore : (keys.length : Int).tdiv 2 < last.vok.toNat := by
    simpa [BlockStore.tooFewVotes, BlockStore.vipSize, hkeys] using hvotes
  rw [Int.tdiv_eq_ediv_of_nonneg (by omega)] at hmore
  unfold validateLastBlock
  rw [hfilter, hlength, decide_eq_true_eq]
  omega

/-- The first block of the range that the handler answers, and the last one. -/
def BlockStore.firstBlock (store : BlockStore) (fromTime : UInt32) : UInt32 :=
  if roundTime fromTime = 0 then store.start else roundTime fromTime

def BlockStore.lastBlock (store : BlockStore) (upto : UInt32) : UInt32 :=
  if upto = 0 then store.time - (store.time % blockSec - blockSec) else upto

/-- The blocks of the range from `first` on that have the VIP keys of a header, and the one
that changes them. -/
def BlockStore.range (store : BlockStore) (header : VotedHeader) (first upto : UInt32) :
    List VotedHeader :=
  store.rangeFrom header.viphash (store.lastBlock upto)
    (((store.lastBlock upto).toNat - first.toNat) / blockSec.toNat + 1) first

/-- These blocks without those at the end that have too few votes. -/
def BlockStore.answeredFrom (store : BlockStore) (header : VotedHeader) (first upto : UInt32) :
    List VotedHeader :=
  (store.range header first upto).rdropWhile (store.tooFewVotes header)

/-- The header whose VIP keys validate the range: of its first block when the first keys are
sent, else of the block before. -/
def BlockStore.baseHeader (store : BlockStore) (fromTime toTime : UInt32) : VotedHeader :=
  if wantsFirstKeys (roundTime fromTime) (roundTime toTime) then
    (store.header (store.firstBlock fromTime)).getD { now := 0, nowhash := 0 }
  else (store.header (roundTime fromTime - blockSec)).getD { now := 0, nowhash := 0 }

/-- The headers that a request is to be answered with. -/
def BlockStore.answered (store : BlockStore) (fromTime toTime : UInt32) : List VotedHeader :=
  if ¬ wantsFirstKeys (roundTime fromTime) (roundTime toTime) ∧ roundTime fromTime < store.start
  then []
  else store.answeredFrom (store.baseHeader fromTime toTime) (store.firstBlock fromTime)
    (roundTime toTime)

/-- The client reads the response to its end, the response has the given headers, and the
client accepts them: they follow its anchor and the last one is signed. -/
structure Answered (c : Crypto) (client : BlocksClient) (fromTime toTime : UInt32)
    (headers : List VotedHeader) (response : Except BlocksError BlocksResponse) : Prop where
  read : getBlocksSend c client fromTime toTime (responseBytes response) = some []
  headers_eq : ∀ r, response = .ok r → r.headers = headers
  accepted : headers ≠ [] → ∃ r first last anchor, response = .ok r ∧
    headers.head? = some first ∧ headers.getLast? = some last ∧
    loadLastHeader c client first
      (if wantsFirstKeys fromTime toTime then some r.firstVipKeys else none) = some anchor ∧
    r.Accepted c anchor last

section Answer

variable {client : BlocksClient} {fromTime toTime : UInt32}

/-- An error is read by its code. -/
theorem Answered.error (e : BlocksError) : Answered c client fromTime toTime [] (.error e) := by
  refine ⟨?_, fun r h => (by cases h), fun h => absurd rfl h⟩
  have hread := readNumber_bytesLE (n := e.code) (by cases e <;> norm_num [BlocksError.code]) []
  rw [List.append_nil] at hread
  unfold getBlocksSend responseBytes
  rw [hread]
  cases e <;> rfl

theorem Answered.ok {r : BlocksResponse} (hsmall : r.Small)
    (hwants : wantsFirstKeys fromTime toTime = true ↔ r.firstVipKeys ≠ [])
    (haccept : r.AcceptedBy c client fromTime toTime) :
    Answered c client fromTime toTime r.headers (.ok r) := by
  refine ⟨getBlocksSend_response hsmall hwants haccept, fun r' h => by cases h; rfl, fun hne => ?_⟩
  have hhead := List.head?_eq_some_head hne
  have hlast := List.getLast?_eq_some_getLast hne
  obtain ⟨anchor, hload, haccepted⟩ := haccept _ _ hhead hlast
  exact ⟨r, _, _, anchor, rfl, hhead, hlast, hload, haccepted⟩

/-- A response without headers. -/
theorem Answered.empty {firstKeys : List VipKey} (flag : Bool)
    (hsmall : 34 * firstKeys.length < 2 ^ 32)
    (hwants : wantsFirstKeys fromTime toTime = true ↔ firstKeys ≠ []) :
    Answered c client fromTime toTime []
      (.ok { firstVipKeys := firstKeys, newviphash := flag }) := by
  have hok : ∀ r : BlocksResponse, r = { firstVipKeys := firstKeys, newviphash := flag } →
      Answered c client fromTime toTime r.headers (.ok r) := by
    rintro r rfl
    exact .ok ⟨hsmall, by simp, by simp, by simp⟩ hwants fun _ _ h => by cases h
  exact hok _ rfl

/-- The keys of the block before the last one sign it. -/
theorem signerHash_last {last : VotedHeader} (hvalid : store.Valid c)
    (hstored : store.StoredFrom first (pre ++ [last])) (hpre : pre ≠ [])
    (hsame : ∀ h ∈ pre, h.viphash = header.viphash) :
    store.signerHash last = header.viphash := by
  obtain ⟨hne, hget, hbefore⟩ := hstored.last
  obtain ⟨p, hp, n, hn, hne', hget'⟩ := hbefore.resolve_left hpre
  have hnow : last.now = blocksAfter first n + blockSec := by
    rw [hvalid.now _ _ hne hget, hn, blocksAfter]
  unfold BlockStore.signerHash
  rw [hnow, UInt32.add_sub_cancel, hget']
  exact hsame p hp

theorem checkedKeys_stored (hvalid : store.Valid c) (hne : t ≠ 0) (hget : store.header t = some h) :
    ∃ keys, store.checkedKeys c h.viphash = some keys ∧ store.vip h.viphash = some keys ∧
      keys ≠ [] ∧ vipKeysHash c keys = h.viphash ∧ 34 * keys.length < 2 ^ 32 := by
  obtain ⟨keys, hvip, hkeys, hhash, hsmall⟩ := hvalid.vip t h hne hget
  refine ⟨keys, ?_, hvip, hkeys, hhash, hsmall⟩
  unfold BlockStore.checkedKeys
  rw [hvip]
  simp [hkeys, hhash]

/-- How the client begins: it loads an anchor whose keys are those of the base header, if it
has them, and that accepts the signatures of a range of one block. -/
def Begins (c : Crypto) (store : BlockStore) (client : BlocksClient) (header first : VotedHeader)
    (answered : List VotedHeader) (keys : Option (List VipKey)) : Prop :=
  ∃ ks, (ks = [] ∨ store.vip header.viphash = some ks) ∧
    loadLastHeader c client first keys = some ⟨header.viphash, first.oldhash, ks⟩ ∧
    (answered = [first] → store.tooFewVotes header first = false →
      validateLastBlock c ks first.toHeader (store.signatures first.now) = true)

/-- The signatures of the last block pass the check of the client. -/
theorem validateLastBlock_answered {last : VotedHeader} (hvalid : store.Valid c)
    (hstored : store.StoredFrom first (pre ++ [last])) (hget : store.header first = some h)
    (hsame : ∀ h ∈ pre, h.viphash = header.viphash)
    (hvotes : store.tooFewVotes header last = false)
    (hkeys : keys = [] ∨ store.vip header.viphash = some keys)
    (hone : pre ++ [last] = [h] → store.tooFewVotes header h = false →
      validateLastBlock c keys h.toHeader (store.signatures h.now) = true) :
    validateLastBlock c keys last.toHeader (store.signatures last.now) = true := by
  by_cases hpre : pre = []
  · subst hpre
    obtain rfl : last = h := by
      have hfirst := hstored.2.1
      rw [hget] at hfirst
      exact (Option.some.inj hfirst).symm
    exact hone rfl hvotes
  · rcases hkeys with rfl | hkeys
    · simp [validateLastBlock, keyMap]
    · obtain ⟨hne, hlast, -⟩ := hstored.last
      have hnow := hvalid.now _ _ hne hlast
      rw [← hnow] at hne hlast
      exact validateLastBlock_stored hvalid hne hlast hkeys
        (signerHash_last hvalid hstored hpre hsame) hvotes

/-- The response with the collected headers. -/
def HeaderLoop.response (c : Crypto) (store : BlockStore) (firstVipKeys : List VipKey)
    (r : HeaderLoop) : BlocksResponse where
  firstVipKeys := firstVipKeys
  headers := r.headers
  newviphash := r.newviphash
  signatures := store.signatures r.block.now
  newVipKeys := if r.newviphash then (store.checkedKeys c r.block.viphash).getD [] else []

section Collected

variable {last : VotedHeader} {range : List VotedHeader} {r : HeaderLoop} {firstKeys : List VipKey}
  (hvalid : store.Valid c) (hcollected : store.Collected first header range r)
  (hchanges : ∀ h ∈ range, h.viphash ≠ header.viphash → store.tooFewVotes header h = false)
  (hsplit : r.headers = pre ++ [last])

include hvalid hcollected hchanges hsplit

/-- New keys are those of the last header. -/
theorem newVipKeys_response :
    34 * (r.response c store firstKeys).newVipKeys.length < 2 ^ 32 ∧
      ((r.response c store firstKeys).newVipKeys ≠ [] →
        vipKeysHash c (r.response c store firstKeys).newVipKeys = last.viphash) := by
  have hstored := hcollected.stored
  rw [hsplit] at hstored
  obtain ⟨hne, hget, -⟩ := hstored.last
  obtain ⟨newKeys, hchecked, -, -, hhash, hsmall⟩ := checkedKeys_stored hvalid hne hget
  cases hflag : r.newviphash with
  | false => simp [HeaderLoop.response, hflag]
  | true =>
      have hnew : (r.response c store firstKeys).newVipKeys = newKeys := by
        simp [HeaderLoop.response, hflag, hcollected.newKeys hchanges pre last hsplit hflag,
          hchecked]
      rw [hnew]
      exact ⟨hsmall, fun _ => hhash⟩

theorem small_response (hsmall : 34 * firstKeys.length < 2 ^ 32) :
    (r.response c store firstKeys).Small := by
  refine ⟨hsmall, ?_, ?_, (newVipKeys_response hvalid hcollected hchanges hsplit).1⟩
  · have htime := hvalid.toNat_blocksAfter hcollected.stored
    have hlt := (blocksAfter first r.headers.length).toNat_lt
    have hsec : blockSec.toNat = 512 := rfl
    rw [hsec] at htime
    show r.headers.length < 2 ^ 32
    omega
  · have hstored := hcollected.stored
    rw [hsplit] at hstored
    obtain ⟨hne, hget, -⟩ := hstored.last
    have hlength := hvalid.signatures _ _ hne hget
    rw [← hvalid.now _ _ hne hget, ← (hcollected.last pre last hsplit).1] at hlength
    show (store.signatures r.block.now).length < 2 ^ 32
    have hvok := last.vok.toNat_lt
    omega

/-- The client accepts the headers that the handler collects. -/
theorem accepted_response {keys : Option (List VipKey)} (hget : store.header first = some h)
    (hbegins : Begins c store client header h r.headers keys) :
    ∃ anchor, loadLastHeader c client h keys = some anchor ∧
      (r.response c store firstKeys).Accepted c anchor last := by
  obtain ⟨ks, hks, hload, hone⟩ := hbegins
  obtain ⟨hnow, hvotes⟩ := hcollected.last pre last hsplit
  have hsame := hcollected.same pre last hsplit
  have hstored := hcollected.stored
  rw [hsplit] at hstored hone
  refine ⟨_, hload, ?_, ?_, (newVipKeys_response hvalid hcollected hchanges hsplit).2⟩
  · show validateChain c header.viphash h.oldhash r.headers = true
    rw [hsplit]
    refine validateChain_stored hvalid hstored hsame fun h' hget' => ?_
    rw [hget] at hget'
    rw [Option.some.inj hget']
  · show validateLastBlock c ks last.toHeader (store.signatures r.block.now) = true
    rw [hnow]
    exact validateLastBlock_answered hvalid hstored hget hsame hvotes hks hone

end Collected

theorem BlockStore.StoredFrom.head {hs : List VotedHeader} (hstored : store.StoredFrom first hs)
    (hhead : hs.head? = some h) :
    store.header first = some h := by
  obtain ⟨hs', rfl⟩ : ∃ hs', hs = h :: hs' := ⟨_, (List.cons_head?_tail hhead).symm⟩
  exact hstored.2.1

/-- The part of the response behind the choice of the base header. -/
theorem prepareBlocks_answered {upto : UInt32}
    {firstKeys : List VipKey} (hvalid : store.Valid c) (hfirst : first ≠ 0)
    (hsmall : 34 * firstKeys.length < 2 ^ 32)
    (hwants : wantsFirstKeys fromTime toTime = true ↔ firstKeys ≠ [])
    (hchanges : store.answeredFrom header first upto ≠ [] → ∀ h ∈ store.range header first upto,
      h.viphash ≠ header.viphash → store.tooFewVotes header h = false)
    (hbegins : store.answeredFrom header first upto ≠ [] → ∀ h, store.header first = some h →
      Begins c store client header h (store.answeredFrom header first upto)
        (if wantsFirstKeys fromTime toTime then some firstKeys else none)) :
    Answered c client fromTime toTime (store.answeredFrom header first upto)
      (prepareBlocks c store first upto header block firstKeys) := by
  have hcollected := readBlockHeaders_collected hvalid hfirst (store.lastBlock upto) header block
  have hrange : store.rangeFrom header.viphash (store.lastBlock upto)
      (((store.lastBlock upto).toNat - first.toNat) / blockSec.toNat + 1) first =
      store.range header first upto := rfl
  have hlast : (if upto = 0 then store.time - (store.time % blockSec - blockSec) else upto) =
      store.lastBlock upto := rfl
  rw [hrange] at hcollected
  have hheaders := hcollected.headers
  change _ = store.answeredFrom header first upto at hheaders
  unfold prepareBlocks
  dsimp only
  rw [hlast]
  generalize readBlockHeaders store first (store.lastBlock upto) header block = r at *
  split
  · rename_i hlt
    have hnil : store.answeredFrom header first upto = [] := by
      unfold BlockStore.answeredFrom BlockStore.range
      rw [BlockStore.rangeFrom, if_neg (UInt32.not_le.mpr hlt), List.rdropWhile_nil]
    rw [hnil]
    exact .empty false hsmall hwants
  split
  · rename_i hne
    rw [← hheaders] at hchanges hbegins ⊢
    obtain ⟨pre, last, hsplit⟩ := List.eq_nil_or_concat r.headers |>.resolve_left hne
    rw [List.concat_eq_append] at hsplit
    have hchanges := hchanges hne
    refine Answered.ok (r := r.response c store firstKeys)
      (small_response hvalid hcollected hchanges hsplit hsmall) hwants ?_
    intro first' last' hhead hlast
    have hlast' : r.headers.getLast? = some last := by
      rw [hsplit, List.getLast?_append_of_ne_nil _ (List.cons_ne_nil last []),
        List.getLast?_singleton]
    obtain rfl := Option.some.inj (hlast'.symm.trans hlast)
    have hget := hcollected.stored.head hhead
    exact accepted_response hvalid hcollected hchanges hsplit hget (hbegins hne first' hget)
  · rename_i hnil
    rw [← hheaders, not_not.mp hnil, hcollected.none (not_not.mp hnil)]
    split
    · exact .empty r.newviphash hsmall hwants
    · exact .error _

/-- A range that asks for the first keys asks for them after rounding too. -/
theorem wantsFirstKeys_round (h : wantsFirstKeys fromTime toTime = true) :
    wantsFirstKeys (roundTime fromTime) (roundTime toTime) = true := by
  rw [wantsFirstKeys, Bool.or_eq_true, decide_eq_true_eq, decide_eq_true_eq] at h ⊢
  rcases h with rfl | rfl
  · exact .inl rfl
  · exact .inr rfl

/-- What a request needs beyond a valid store. If the rounded range asks for the first keys, so
does the range as it was given, and a single block with new VIP keys is signed by half of them.
If not, the last block of the client is the one before the range and it has no other keys for
it. A block of the range with new VIP keys has enough votes. -/
structure Answerable (c : Crypto) (store : BlockStore) (client : BlocksClient)
    (fromTime toTime : UInt32) : Prop where
  agree : wantsFirstKeys (roundTime fromTime) (roundTime toTime) = true →
    (store.header (store.firstBlock fromTime)).isSome → wantsFirstKeys fromTime toTime = true
  own : wantsFirstKeys (roundTime fromTime) (roundTime toTime) = true → ∀ p h keys,
    store.answered fromTime toTime = [h] →
    store.header (store.firstBlock fromTime - blockSec) = some p → p.viphash ≠ h.viphash →
    store.vip h.viphash = some keys →
      validateLastBlock c keys h.toHeader (store.signatures h.now) = true
  known : wantsFirstKeys (roundTime fromTime) (roundTime toTime) = false →
    store.answered fromTime toTime ≠ [] → ∃ p l,
      store.header (roundTime fromTime - blockSec) = some p ∧ client.last = some l ∧
        l.now = p.now ∧ l.viphash = p.viphash ∧ l.nowhash = p.nowhash ∧
          ∀ keys, client.vip p.viphash = some keys → store.vip p.viphash = some keys
  changes : store.answered fromTime toTime ≠ [] →
    ∀ h ∈ store.range (store.baseHeader fromTime toTime) (store.firstBlock fromTime)
      (roundTime toTime), h.viphash ≠ (store.baseHeader fromTime toTime).viphash →
        store.tooFewVotes (store.baseHeader fromTime toTime) h = false

/-- The client takes the first keys for its anchor. -/
theorem begins_first {answered : List VotedHeader} (hvalid : store.Valid c) (hfirst : first ≠ 0)
    (hget : store.header first = some h) (hvip : store.vip h.viphash = some keys)
    (hhash : vipKeysHash c keys = h.viphash)
    (hown : ∀ p, answered = [h] → store.header (first - blockSec) = some p →
      p.viphash ≠ h.viphash →
      validateLastBlock c keys h.toHeader (store.signatures h.now) = true) :
    Begins c store client h h answered (some keys) := by
  have htime := hvalid.now _ _ hfirst hget
  refine ⟨keys, .inr hvip, ?_, fun hone hvotes => ?_⟩
  · rw [loadLastHeader, if_neg (not_not.mpr hhash),
      if_neg (not_not.mpr (hvalid.nowhash _ _ hfirst hget))]
  · by_cases hsigner : store.signerHash h = h.viphash
    · exact validateLastBlock_stored hvalid (htime ▸ hfirst) (htime ▸ hget) hvip hsigner hvotes
    · unfold BlockStore.signerHash at hsigner
      rw [htime] at hsigner
      cases hp : store.header (first - blockSec) with
      | none => simp [hp] at hsigner
      | some p => exact hown p hone hp (by simpa [hp] using hsigner)

/-- The client takes its last block for its anchor. -/
theorem begins_known {p l : VotedHeader} {answered : List VotedHeader} (hvalid : store.Valid c)
    (hbefore : first - blockSec ≠ 0) (hfirst : first ≠ 0)
    (hp : store.header (first - blockSec) = some p) (hget : store.header first = some h)
    (hlast : client.last = some l) (hnow : l.now = p.now) (hviphash : l.viphash = p.viphash)
    (hnowhash : l.nowhash = p.nowhash)
    (hvip : ∀ keys, client.vip p.viphash = some keys → store.vip p.viphash = some keys) :
    Begins c store client p h answered none := by
  have htime := hvalid.now _ _ hfirst hget
  have hlinked : h.oldhash = p.nowhash := by
    refine hvalid.linked _ p h hbefore hp ?_
    rw [UInt32.sub_add_cancel]
    exact hget
  have hkeys : (client.vip p.viphash).getD [] = [] ∨
      store.vip p.viphash = some ((client.vip p.viphash).getD []) := by
    cases hclient : client.vip p.viphash with
    | none => exact .inl rfl
    | some keys => exact .inr (hvip keys hclient)
  refine ⟨(client.vip p.viphash).getD [], hkeys, ?_, fun _ hvotes => ?_⟩
  · have hnext : ¬ l.now + blockSec ≠ h.now := by
      rw [hnow, hvalid.now _ _ hbefore hp, UInt32.sub_add_cancel, htime]
      exact not_not.mpr rfl
    rw [loadLastHeader, hlast]
    simp only [Option.bind_eq_bind, Option.bind_some]
    rw [if_neg hnext, hviphash, hnowhash, hlinked]
  · rcases hkeys with hnil | hkeys
    · simp [hnil, validateLastBlock, keyMap]
    · refine validateLastBlock_stored hvalid (htime ▸ hfirst) (htime ▸ hget) hkeys ?_ hvotes
      unfold BlockStore.signerHash
      rw [htime, hp]

theorem BlockStore.Valid.start_ne_zero (hvalid : store.Valid c) : store.start ≠ 0 := by
  intro hzero
  have hlt := UInt32.lt_iff_toNat_lt.mp hvalid.start
  rw [hzero, UInt32.toNat_zero] at hlt
  omega

theorem BlockStore.Valid.firstBlock_ne_zero (hvalid : store.Valid c) (fromTime : UInt32) :
    store.firstBlock fromTime ≠ 0 := by
  unfold BlockStore.firstBlock
  split
  · exact hvalid.start_ne_zero
  · assumption

/-- The block before a block that is not before the start. -/
theorem BlockStore.Valid.sub_blockSec_ne_zero (hvalid : store.Valid c) (hle : ¬ t < store.start) :
    t - blockSec ≠ 0 := by
  intro hzero
  have hlt := UInt32.lt_iff_toNat_lt.mp hvalid.start
  have hge := UInt32.le_iff_toNat_le.mp (UInt32.not_lt.mp hle)
  have hsub := UInt32.sub_add_cancel t blockSec
  rw [hzero, UInt32.zero_add] at hsub
  rw [← hsub] at hge
  omega

section Requests

variable (hvalid : store.Valid c) (hanswer : Answerable c store client fromTime toTime)

include hvalid hanswer

/-- A range whose first keys are sent. -/
theorem answered_first (hwants : wantsFirstKeys (roundTime fromTime) (roundTime toTime) = true) :
    Answered c client fromTime toTime (store.answered fromTime toTime)
      (prepareResponse c store fromTime toTime) := by
  have hfirst := hvalid.firstBlock_ne_zero fromTime
  have hblock : (if roundTime fromTime = 0 then store.start else roundTime fromTime) =
      store.firstBlock fromTime := rfl
  have hanswered : store.answered fromTime toTime = store.answeredFrom
      (store.baseHeader fromTime toTime) (store.firstBlock fromTime) (roundTime toTime) :=
    if_neg fun h => h.1 hwants
  unfold prepareResponse
  dsimp only
  rw [if_neg hvalid.start_ne_zero, if_pos hwants, hblock]
  cases hget : store.header (store.firstBlock fromTime) with
  | none =>
      have hnil : store.answered fromTime toTime = [] := by
        rw [hanswered, BlockStore.answeredFrom, BlockStore.range, BlockStore.rangeFrom]
        simp [hget]
      rw [readDataFromHeaderFile_of_none hget, hnil]
      exact .error _
  | some h =>
      have hbase : store.baseHeader fromTime toTime = h := by
        rw [BlockStore.baseHeader, if_pos hwants, hget, Option.getD_some]
      have hraw := hanswer.agree hwants (by rw [hget]; rfl)
      obtain ⟨keys, hchecked, hvip, hkeys, hhash, hsmall⟩ := checkedKeys_stored hvalid hfirst hget
      have hchanges := hanswer.changes
      have hown := fun p => hanswer.own hwants p h keys
      rw [readDataFromHeaderFile_of_some hvalid hfirst hget]
      dsimp only
      rw [hanswered, hbase] at hchanges hown ⊢
      rw [hchecked]
      refine prepareBlocks_answered hvalid hfirst hsmall ⟨fun _ => hkeys, fun _ => hraw⟩ hchanges ?_
      intro _ h' hget'
      obtain rfl := Option.some.inj (hget.symm.trans hget')
      rw [if_pos hraw]
      exact begins_first hvalid hfirst hget hvip hhash
        fun p hone hp hne => hown p hone hp hne hvip

/-- A range behind a block that the client has. -/
theorem answered_known (hwants : wantsFirstKeys (roundTime fromTime) (roundTime toTime) = false) :
    Answered c client fromTime toTime (store.answered fromTime toTime)
      (prepareResponse c store fromTime toTime) := by
  have hnot : ¬ wantsFirstKeys (roundTime fromTime) (roundTime toTime) = true := by simp [hwants]
  have hraw : ¬ wantsFirstKeys fromTime toTime = true := mt wantsFirstKeys_round hnot
  have hfirst : roundTime fromTime ≠ 0 := by
    intro hzero
    simp [wantsFirstKeys, hzero] at hwants
  have hblock : store.firstBlock fromTime = roundTime fromTime := if_neg hfirst
  unfold prepareResponse
  dsimp only
  rw [if_neg hvalid.start_ne_zero, if_neg hnot]
  split
  · rename_i hlt
    have hnil : store.answered fromTime toTime = [] := if_pos ⟨hnot, hlt⟩
    rw [hnil]
    exact .error _
  rename_i hle
  have hbefore := hvalid.sub_blockSec_ne_zero hle
  have hanswered : store.answered fromTime toTime = store.answeredFrom
      (store.baseHeader fromTime toTime) (roundTime fromTime) (roundTime toTime) := by
    rw [BlockStore.answered, if_neg fun h => hle h.2, hblock]
  have hchanges := hanswer.changes
  have hknown := hanswer.known hwants
  have hbegins : store.answered fromTime toTime ≠ [] → ∀ h,
      store.header (roundTime fromTime) = some h →
      Begins c store client (store.baseHeader fromTime toTime) h
        (store.answered fromTime toTime) none := by
    intro hne h hget
    obtain ⟨p, l, hp, hlast, hnow, hviphash, hnowhash, hvip⟩ := hknown hne
    rw [BlockStore.baseHeader, if_neg hnot, hp, Option.getD_some]
    exact begins_known hvalid hbefore hfirst hp hget hlast hnow hviphash hnowhash hvip
  have hblocks : ∀ block, Answered c client fromTime toTime (store.answered fromTime toTime)
      (prepareBlocks c store (roundTime fromTime) (roundTime toTime)
        (store.baseHeader fromTime toTime) block []) := by
    intro block
    rw [hanswered, hblock] at hchanges
    rw [hanswered] at hbegins ⊢
    refine prepareBlocks_answered hvalid hfirst (by simp)
      ⟨fun h => absurd h hraw, fun h => absurd rfl h⟩ hchanges ?_
    rw [if_neg hraw]
    exact hbegins
  cases hget : store.header (roundTime fromTime - blockSec) with
  | none =>
      have hbase : store.baseHeader fromTime toTime = { now := 0, nowhash := 0 } := by
        rw [BlockStore.baseHeader, if_neg hnot, hget, Option.getD_none]
      rw [readDataFromHeaderFile_of_none hget]
      exact hbase ▸ hblocks _
  | some p =>
      have hbase : store.baseHeader fromTime toTime = p := by
        rw [BlockStore.baseHeader, if_neg hnot, hget, Option.getD_some]
      rw [readDataFromHeaderFile_of_some hvalid hbefore hget]
      exact hbase ▸ hblocks _

end Requests

/-- On a valid store every answerable request is answered with the blocks of its range, up to
the first one with new VIP keys and without those at the end that have too few votes. The
client reads the response to its end and accepts the blocks. -/
theorem getBlocks_complete (hvalid : store.Valid c)
    (hanswer : Answerable c store client fromTime toTime) :
    Answered c client fromTime toTime (store.answered fromTime toTime)
      (prepareResponse c store fromTime toTime) := by
  cases hwants : wantsFirstKeys (roundTime fromTime) (roundTime toTime) with
  | true => exact answered_first hvalid hanswer hwants
  | false => exact answered_known hvalid hanswer hwants

end Answer

namespace Sample

/-- A block with one VIP node and its vote. -/
def votedHeader (t : UInt32) : VotedHeader where
  now := t
  oldhash := 64
  viphash := 64
  nowhash := 64
  vok := 1

/-- Three blocks with the same VIP node. -/
def blockStore : BlockStore where
  start := 1024
  header t := if t = 1024 ∨ t = 1536 ∨ t = 2048 then some (votedHeader t) else none
  vip h := if h = 64 then some [⟨1, 5⟩] else none
  signatures _ := [⟨1, 0⟩]
  time := 2560

/-- A client that has the first of them. -/
def blocksClient : BlocksClient where
  last := some (votedHeader 1024)
  vip := blockStore.vip

theorem blockStore_header (hget : blockStore.header t = some h) :
    (t = 1024 ∨ t = 1536 ∨ t = 2048) ∧ h = votedHeader t := by
  unfold blockStore at hget
  dsimp only at hget
  split at hget
  · rename_i ht
    exact ⟨ht, (Option.some.inj hget).symm⟩
  · cases hget

theorem blockStore_valid : blockStore.Valid lengthCrypto where
  start := by decide
  now t h _ hget := by
    obtain ⟨-, rfl⟩ := blockStore_header hget
    rfl
  bounded t h _ hget := by
    obtain ⟨rfl | rfl | rfl, -⟩ := blockStore_header hget <;> decide
  nowhash t h _ hget := by
    obtain ⟨rfl | rfl | rfl, rfl⟩ := blockStore_header hget <;> decide +kernel
  linked t p h _ hget hget' := by
    obtain ⟨-, rfl⟩ := blockStore_header hget
    obtain ⟨-, rfl⟩ := blockStore_header hget'
    rfl
  vip t h _ hget := by
    obtain ⟨-, rfl⟩ := blockStore_header hget
    exact ⟨[⟨1, 5⟩], rfl, by decide,
      show vipKeysHash lengthCrypto [⟨1, 5⟩] = 64 by decide +kernel, by decide⟩
  signatures t h _ hget := by
    obtain ⟨-, rfl⟩ := blockStore_header hget
    rfl
  signed t h keys _ hget hvip := by
    have hsigner : blockStore.vip (blockStore.signerHash h) = some [⟨1, 5⟩] := by
      obtain ⟨rfl | rfl | rfl, rfl⟩ := blockStore_header hget <;> decide +kernel
    obtain rfl := Option.some.inj (hsigner.symm.trans hvip)
    obtain ⟨rfl | rfl | rfl, rfl⟩ := blockStore_header hget <;> decide +kernel

end Sample

/-- The client that has the first block gets the two others. -/
theorem getBlocks_complete_next :
    Sample.blockStore.answered 1536 2048 = [Sample.votedHeader 1536, Sample.votedHeader 2048] ∧
    Answered Sample.lengthCrypto Sample.blocksClient 1536 2048
      (Sample.blockStore.answered 1536 2048)
      (prepareResponse Sample.lengthCrypto Sample.blockStore 1536 2048) := by
  have hwants : wantsFirstKeys (roundTime 1536) (roundTime 2048) = false := by decide
  refine ⟨by decide +kernel, getBlocks_complete Sample.blockStore_valid ⟨?_, ?_, ?_, ?_⟩⟩
  · exact fun h => absurd h (by simp [hwants])
  · exact fun h => absurd h (by simp [hwants])
  · exact fun _ _ => ⟨Sample.votedHeader 1024, Sample.votedHeader 1024, by decide +kernel, rfl, rfl,
      rfl, rfl, fun _ h => h⟩
  · intro _
    decide +kernel

/-- A block asked for with a range inside it: the handler sends the first keys and the client
takes their length for a number of headers. A client that does not have the block before
refuses the range. -/
theorem getBlocks_incomplete :
    Sample.blockStore.Valid Sample.lengthCrypto ∧
    getBlocksSend Sample.lengthCrypto Sample.blocksClient 1536 1537
      (responseBytes (prepareResponse Sample.lengthCrypto Sample.blockStore 1536 1537)) = none ∧
    getBlocksSend Sample.lengthCrypto { Sample.blocksClient with last := none } 1536 2048
      (responseBytes (prepareResponse Sample.lengthCrypto Sample.blockStore 1536 2048)) =
        none := by
  exact ⟨Sample.blockStore_valid, by decide +kernel, by decide +kernel⟩

end Esc
