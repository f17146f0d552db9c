import Esc.Lib.Loop
import Esc.Message.Wire
import Mathlib.Data.List.Chain

/-!
# The header list of a synchronising node

A node that starts loads the block headers it has missed from its peers before it
loads the blocks. Each peer's thread first copies the last header it knows, then
waits for the network, then appends what it received; between those two locked
steps the list and the last loaded block may change.

`load_chain` keeps an iterator into the list instead of removing headers from its
front, so the headers still to be loaded are those from the iterator on.
-/

namespace Esc

open Lib

/-- `headlink_t`: what a header adds to its time and its predecessor's hash. -/
structure HeadLink where
  msg : UInt32 := 0
  nod : UInt32 := 0
  div : UInt32 := 0
  msghash : Hash := 0
  nodhash : Hash := 0
  viphash : Hash := 0
deriving DecidableEq, Repr

/-- The part of `header_t` that `loadhead` copies. -/
structure Head extends HeadLink where
  now : UInt32
  oldhash : Hash := 0
deriving DecidableEq, Repr

/-- The header part of `servers`. -/
structure Header extends Head where
  nowhash : Hash
deriving DecidableEq, Repr

def Head.hashnow (c : Crypto) (head : Head) : Hash :=
  let nowhash := c.sha256 (bytesLE 4 head.now.toNat ++ bytesLE 4 head.msg.toNat ++
    bytesLE 4 head.nod.toNat ++ bytesLE 4 head.div.toNat)
  addhash c (addhash c (addhash c (addhash c nowhash head.nodhash) head.viphash) head.oldhash)
    head.msghash

def Header.loadhead (c : Crypto) (head : Head) : Header := { head with nowhash := head.hashnow c }

def Header.loadlink (c : Crypto) (link : HeadLink) (path : UInt32) (oldh : Hash) : Header :=
  Header.loadhead c { link with now := path, oldhash := oldh }

@[simp] theorem Header.now_loadlink (c : Crypto) (link : HeadLink) (path : UInt32) (oldh : Hash) :
    (Header.loadlink c link path oldh).now = path := rfl

/-- How a header operation can end other than by returning. -/
inductive HeaderFault where
  /-- The last element of an empty list is read. -/
  | emptyBack
  /-- A link behind the received ones is read. -/
  | overrun
  /-- An assertion fails, or the process exits. -/
  | abort
deriving DecidableEq, Repr

/-- The loop of `handle_read_headers` over the received links. -/
def linkHeaders (c : Crypto) (upto : UInt32) :
    List HeadLink → UInt32 → Hash → Except HeaderFault (List Header)
  | [], now, _ => if now < upto then .error .overrun else .ok []
  | link :: links, now, oldh =>
    if now < upto then do
      let header := Header.loadlink c link now oldh
      let rest ← linkHeaders c upto links (now + blockSec) header.nowhash
      .ok (header :: rest)
    else .ok []

/-- `handle_read_headers` between its two locked steps: `none` is a return before
`add_headers`. The links are those that answer the request for `num - 1` of them. -/
def readHeaders (c : Crypto) (syncLs : Header) (head : Head) (oldhash : Hash)
    (links : List HeadLink) : Except HeaderFault (Option (List Header)) :=
  if head.now ≤ syncLs.now then .ok none
  else
    let num := ((head.now - syncLs.now) / blockSec).toNat
    if num = 0 then .error .abort
    else if 1 < num then
      if links.length ≠ num - 1 then .ok none
      else do
        let headers ← linkHeaders c head.now links (syncLs.now + blockSec) oldhash
        if headers.getLast?.any (·.nowhash ≠ head.oldhash) then .ok none
        else if oldhash ≠ syncLs.nowhash then .ok none
        else .ok (some (headers ++ [Header.loadhead c head]))
    else if head.oldhash ≠ syncLs.nowhash then .ok none
    else .ok (some [Header.loadhead c head])

/-- The state that the header operations share. -/
structure Sync where
  /-- The header of `last_srvs_`. -/
  last : Header
  headers : List Header
  /-- Number of headers that the iterator of `load_chain` has passed. -/
  block : Nat
  doSync : Bool
  /-- The copy `sync_ls` of each peer's thread. -/
  syncLs : UInt16 → Option Header

def Sync.start (last : Header) : Sync :=
  { last, headers := [], block := 0, doSync := true, syncLs := fun _ => none }

def Sync.getLastHeader (c : Crypto) (s : Sync) (syncHs : Head) : Header :=
  s.headers.getLast?.getD (.loadhead c syncHs)

def Sync.addNextHeader (s : Sync) (start : UInt32) (peerLs : Header) : Except HeaderFault Sync :=
  let added := { s with headers := s.headers ++ [peerLs] }
  if s.headers = [] ∧ peerLs.oldhash = s.last.nowhash then .ok added
  else
    match s.headers.getLast? with
    | none => .error .emptyBack
    | some back =>
      if back.now = start - blockSec ∧ peerLs.oldhash = back.nowhash then .ok added else .ok s

def Sync.addHeaders (s : Sync) (peerHeaders : List Header) : Except HeaderFault Sync :=
  if !s.doSync then .ok s
  else
    match s.headers.getLast? with
    | none => .ok { s with headers := peerHeaders }
    | some back =>
      match peerHeaders with
      | [] => .error .overrun
      | first :: _ =>
        if back.now ≠ first.now - blockSec then .ok s
        else .ok { s with headers := s.headers ++ peerHeaders.dropWhile (·.now ≤ back.now) }

/-- One block of `load_chain`, which waits at the end of the list. It exits unless
the block it loads has the time and the hash of the header. -/
def Sync.loadBlock (s : Sync) : Except HeaderFault Sync :=
  match s.headers.drop s.block with
  | [] => .ok s
  | header :: _ =>
    if header.now ≠ s.last.now + blockSec then .error .abort
    else .ok { s with last := header, block := s.block + 1 }

/-- The end of `load_chain`. -/
def Sync.finish (s : Sync) : Sync := { s with headers := [], block := 0, doSync := false }

/-- The locked steps of the threads, with what the peers send. -/
inductive SyncEvent where
  | nextHeader (link : HeadLink) (start : UInt32) (oldhash : Hash)
  | lastHeader (peer : UInt16) (syncHs : Head)
  | headers (peer : UInt16) (head : Head) (oldhash : Hash) (links : List HeadLink)
  | loadBlock
  | finish

def Sync.step (c : Crypto) (s : Sync) : SyncEvent → Except HeaderFault Sync
  | .nextHeader link start oldhash => s.addNextHeader start (.loadlink c link start oldhash)
  | .lastHeader peer syncHs =>
    .ok { s with syncLs := Function.update s.syncLs peer (some (s.getLastHeader c syncHs)) }
  | .headers peer head oldhash links =>
    match s.syncLs peer with
    | none => .ok s
    | some syncLs => do
      match ← readHeaders c syncLs head oldhash links with
      | none => .ok s
      | some peerHeaders => s.addHeaders peerHeaders
  | .loadBlock => s.loadBlock
  | .finish => .ok s.finish

def Sync.run (c : Crypto) (s : Sync) (events : List SyncEvent) : Except HeaderFault Sync :=
  events.foldlM (Sync.step c) s

/-- `next` is the header of the block after `prev`. -/
def Linked (prev next : Header) : Prop :=
  next.now.toNat = prev.now.toNat + blockSec.toNat ∧ next.oldhash = prev.nowhash

instance : DecidableRel Linked := fun _ _ => inferInstanceAs (Decidable (_ ∧ _))

/-- The headers still to be loaded follow the last loaded block, and the whole list
is linked. -/
structure Sync.Chained (s : Sync) : Prop where
  list : s.headers.IsChain Linked
  pending : (s.last :: s.headers.drop s.block).IsChain Linked

/-- When a step keeps the list a chain. A header for an empty list has to follow the
last block in hash and time, and a batch is added only while the copy that it was
requested from is still the end of the list. -/
def Sync.Admits (s : Sync) : SyncEvent → Prop
  | .nextHeader _ start oldhash =>
    match s.headers.getLast? with
    | none => oldhash = s.last.nowhash ∧ start.toNat = s.last.now.toNat + blockSec.toNat
    | some back => back.now = start - blockSec → oldhash = back.nowhash → blockSec ≤ start
  | .headers peer head _ _ =>
    ∀ syncLs, s.syncLs peer = some syncLs → syncLs.now < head.now →
      blockSec.toNat ∣ head.now.toNat - syncLs.now.toNat ∧
      match s.headers.getLast? with
      | none => syncLs.now = s.last.now ∧ syncLs.nowhash = s.last.nowhash
      | some back => back.now = syncLs.now → back.nowhash = syncLs.nowhash
  | _ => True

theorem Linked.congr {prev prev' next : Header} (hnow : prev.now = prev'.now)
    (hhash : prev.nowhash = prev'.nowhash) (h : Linked prev next) : Linked prev' next := by
  rwa [Linked, ← hnow, ← hhash]

theorem isChain_linked_congr {prev prev' : Header} {headers : List Header}
    (hnow : prev.now = prev'.now) (hhash : prev.nowhash = prev'.nowhash)
    (h : (prev :: headers).IsChain Linked) : (prev' :: headers).IsChain Linked := by
  cases headers with
  | nil => exact .singleton _
  | cons header headers =>
      rw [List.isChain_cons_cons] at h ⊢
      exact ⟨h.1.congr hnow hhash, h.2⟩

section Read

variable (c : Crypto)

/-- With times that end at `upto` the loop uses every link once, and builds a chain
that ends one block before `upto`. -/
theorem linkHeaders_linked {upto : UInt32} {links : List HeadLink} {prev : Header}
    (htime : prev.now.toNat + blockSec.toNat * (links.length + 1) = upto.toNat) :
    ∃ headers, linkHeaders c upto links (prev.now + blockSec) prev.nowhash = .ok headers ∧
      headers.length = links.length ∧ (prev :: headers).IsChain Linked ∧
      ∀ back ∈ (prev :: headers).getLast?, back.now.toNat + blockSec.toNat = upto.toNat := by
  have hsec : blockSec.toNat = 512 := rfl
  have hupto := upto.toNat_lt
  induction links generalizing prev with
  | nil =>
      simp only [hsec, List.length_nil] at htime ⊢
      have hnow : (prev.now + blockSec).toNat = upto.toNat := by
        rw [UInt32.toNat_add]
        omega
      refine ⟨[], ?_, rfl, .singleton _, ?_⟩
      · rw [linkHeaders, if_neg]
        rw [UInt32.lt_iff_toNat_lt]
        omega
      · intro back hback
        obtain rfl : prev = back := Option.some.inj hback
        exact htime
  | cons link links ih =>
      have hrest : prev.now.toNat + blockSec.toNat + blockSec.toNat * (links.length + 1) =
          upto.toNat := by
        rw [← htime, List.length_cons]
        ring
      have hle : prev.now.toNat + blockSec.toNat < upto.toNat := by
        rw [← hrest]
        exact Nat.lt_add_of_pos_right (Nat.mul_pos (by decide) (Nat.succ_pos _))
      have hnow : (prev.now + blockSec).toNat = prev.now.toNat + blockSec.toNat := by
        rw [UInt32.toNat_add]
        exact Nat.mod_eq_of_lt (hle.trans hupto)
      have hlt : prev.now + blockSec < upto := by
        rwa [UInt32.lt_iff_toNat_lt, hnow]
      obtain ⟨headers, hrun, hlength, hchain, hback⟩ :=
        @ih (.loadlink c link (prev.now + blockSec) prev.nowhash) (by
          rw [Header.now_loadlink, hnow]
          exact hrest)
      rw [Header.now_loadlink] at hrun
      refine ⟨.loadlink c link (prev.now + blockSec) prev.nowhash :: headers, ?_, ?_, ?_, ?_⟩
      · rw [linkHeaders, if_pos hlt]
        simp only [hrun]
        rfl
      · rw [List.length_cons, List.length_cons, hlength]
      · exact List.isChain_cons_cons.mpr ⟨⟨hnow, rfl⟩, hchain⟩
      · rwa [List.getLast?_cons_cons]

/-- With aligned times a thread that gets as far as `add_headers` holds a nonempty
chain that follows its copy of the last header. -/
theorem readHeaders_linked {syncLs : Header} {head : Head} (oldhash : Hash) (links : List HeadLink)
    (haligned : syncLs.now < head.now → blockSec.toNat ∣ head.now.toNat - syncLs.now.toNat) :
    ∃ batch, readHeaders c syncLs head oldhash links = .ok batch ∧
      ∀ headers ∈ batch, syncLs.now < head.now ∧ ∃ first rest, headers = first :: rest ∧
        (syncLs :: headers).IsChain Linked := by
  by_cases hle : head.now ≤ syncLs.now
  · exact ⟨none, by rw [readHeaders, if_pos hle], by simp⟩
  have hlt : syncLs.now < head.now := UInt32.not_le.mp hle
  have hsec : blockSec.toNat = 512 := rfl
  obtain ⟨k, hk⟩ := haligned hlt
  have hlt' := UInt32.lt_iff_toNat_lt.mp hlt
  have hnum : ((head.now - syncLs.now) / blockSec).toNat = k := by
    rw [UInt32.toNat_div, UInt32.toNat_sub_of_le _ _ (UInt32.le_of_lt hlt), hk]
    exact Nat.mul_div_cancel_left k (by decide)
  rw [hsec] at hk
  have hpos : k ≠ 0 := by
    rintro rfl
    omega
  rw [readHeaders, if_neg hle]
  simp only [hnum, if_neg hpos]
  have hhead : ∀ back : Header, back.now.toNat + blockSec.toNat = head.now.toNat →
      back.nowhash = head.oldhash → Linked back (.loadhead c head) :=
    fun back htime hhash => ⟨htime.symm, hhash.symm⟩
  by_cases hmany : 1 < k
  · rw [if_pos hmany]
    by_cases hlength : links.length = k - 1
    · obtain ⟨headers, hrun, hcount, hchain, hback⟩ :=
        @linkHeaders_linked c head.now links { syncLs with nowhash := oldhash } (by
          change syncLs.now.toNat + _ = _
          rw [hsec]
          omega)
      rw [if_neg (not_not.mpr hlength)]
      change linkHeaders c head.now links (syncLs.now + blockSec) oldhash = .ok headers at hrun
      -- The list is not empty, so its last header is the one the hash test reads.
      obtain ⟨back, hlast⟩ : ∃ back, headers.getLast? = some back := by
        rw [← Option.ne_none_iff_exists', ne_eq, List.getLast?_eq_none_iff]
        rintro rfl
        simp only [List.length_nil] at hcount
        omega
      have hsome := hback back (by simp [List.getLast?_cons, hlast])
      simp only [hrun, bind, Except.bind, hlast, Option.any_some, decide_eq_true_eq]
      by_cases hhash : back.nowhash = head.oldhash
      · by_cases hold : oldhash = syncLs.nowhash
        · refine ⟨some (headers ++ [.loadhead c head]),
            by rw [if_neg (not_not.mpr hhash), if_neg (not_not.mpr hold)], ?_⟩
          rintro batch hbatch
          obtain rfl : headers ++ [Header.loadhead c head] = batch := Option.some.inj hbatch
          subst hold
          have hall : (syncLs :: headers ++ [Header.loadhead c head]).IsChain Linked := by
            refine hchain.append (.singleton _) ?_
            rintro back' hback' next hnext
            obtain rfl : Header.loadhead c head = next := Option.some.inj hnext
            obtain rfl : back = back' := by simpa [List.getLast?_cons, hlast] using hback'
            exact hhead _ hsome hhash
          have hne := List.append_ne_nil_of_right_ne_nil headers
            (List.cons_ne_nil (Header.loadhead c head) [])
          obtain ⟨first, rest, hfirst⟩ := List.exists_cons_of_ne_nil hne
          exact ⟨hlt, first, rest, hfirst, hall⟩
        · exact ⟨none, by rw [if_neg (not_not.mpr hhash), if_pos hold], by simp⟩
      · exact ⟨none, by rw [if_pos hhash], by simp⟩
    · exact ⟨none, by rw [if_pos hlength], by simp⟩
  · rw [if_neg hmany]
    by_cases hhash : head.oldhash = syncLs.nowhash
    · refine ⟨some [.loadhead c head], by rw [if_neg (not_not.mpr hhash)], ?_⟩
      rintro headers hheaders
      obtain rfl : [Header.loadhead c head] = headers := Option.some.inj hheaders
      refine ⟨hlt, _, _, rfl, List.isChain_pair.mpr (hhead _ ?_ hhash.symm)⟩
      omega
    · exact ⟨none, by rw [if_pos hhash], by simp⟩

end Read

theorem eq_add_of_toNat {next prev : UInt32} (h : next.toNat = prev.toNat + blockSec.toNat) :
    next = prev + blockSec := by
  apply UInt32.toNat_inj.mp
  rw [UInt32.toNat_add, ← h]
  exact (Nat.mod_eq_of_lt next.toNat_lt).symm

theorem toNat_eq_add_of_sub {next prev : UInt32} (h : prev = next - blockSec)
    (hle : blockSec ≤ next) : next.toNat = prev.toNat + blockSec.toNat := by
  rw [h, UInt32.toNat_sub_of_le _ _ hle]
  exact (Nat.sub_add_cancel (UInt32.le_iff_toNat_le.mp hle)).symm

/-- The list follows `base`, the last block when the list was empty, and the iterator
stands behind the header of the last block loaded. -/
structure Sync.Follows (s : Sync) (base : Header) : Prop where
  chain : (base :: s.headers).IsChain Linked
  loaded : (base :: s.headers)[s.block]? = some s.last

namespace Sync.Follows

variable {s : Sync} {base : Header}

theorem chained (h : s.Follows base) : s.Chained where
  list := h.chain.tail
  pending := by
    obtain ⟨hlt, hlast⟩ := List.getElem?_eq_some_iff.mp h.loaded
    have hdrop := List.drop_eq_getElem_cons hlt
    rw [hlast, List.drop_succ_cons] at hdrop
    exact hdrop ▸ h.chain.drop s.block

theorem base_eq_last (h : s.Follows base) (hnil : s.headers = []) : base = s.last := by
  have hloaded := h.loaded
  rw [hnil, List.getElem?_singleton] at hloaded
  split at hloaded
  · exact Option.some.inj hloaded
  · cases hloaded

theorem append (h : s.Follows base) {batch : List Header}
    (hbatch : ∀ back ∈ (base :: s.headers).getLast?, (back :: batch).IsChain Linked) :
    Sync.Follows { s with headers := s.headers ++ batch } base where
  chain := by
    obtain ⟨back, hback⟩ : ∃ back, (base :: s.headers).getLast? = some back :=
      ⟨_, List.getLast?_eq_some_getLast (List.cons_ne_nil _ _)⟩
    have hlinked := hbatch back hback
    refine List.IsChain.append h.chain hlinked.tail ?_
    rintro back' hback' next hnext
    obtain rfl : back = back' := Option.some.inj (hback.symm.trans hback')
    cases batch with
    | nil => cases hnext
    | cons first rest =>
        obtain rfl : first = next := Option.some.inj hnext
        exact hlinked.rel
  loaded := by
    have hlt := (List.getElem?_eq_some_iff.mp h.loaded).1
    have hsplit : base :: (s.headers ++ batch) = (base :: s.headers) ++ batch := rfl
    rw [hsplit, List.getElem?_append_left hlt]
    exact h.loaded

/-- The end of the list, which is `base` before the first header. -/
theorem getLast_cons (s : Sync) (base : Header) :
    (base :: s.headers).getLast? = some (s.headers.getLast?.getD base) :=
  List.getLast?_cons

theorem addNextHeader (h : s.Follows base) (c : Crypto) {link : HeadLink} {start : UInt32}
    {oldhash : Hash} (hadmits : s.Admits (.nextHeader link start oldhash)) :
    ∃ s', s.addNextHeader start (.loadlink c link start oldhash) = .ok s' ∧ s'.Follows base := by
  rw [Sync.Admits] at hadmits
  rw [Sync.addNextHeader]
  cases hlast : s.headers.getLast? with
  | none =>
      simp only [hlast] at hadmits
      have hnil := List.getLast?_eq_none_iff.mp hlast
      refine ⟨_, if_pos ⟨hnil, hadmits.1⟩, h.append ?_⟩
      rintro back hback
      rw [hnil, h.base_eq_last hnil] at hback
      obtain rfl : s.last = back := Option.some.inj hback
      exact List.isChain_pair.mpr ⟨hadmits.2, hadmits.1⟩
  | some back =>
      simp only [hlast] at hadmits ⊢
      have hcons : s.headers ≠ [] := by
        rintro hnil
        rw [hnil] at hlast
        cases hlast
      rw [if_neg fun hnil => hcons hnil.1]
      split
      · rename_i hnext
        refine ⟨_, rfl, h.append ?_⟩
        rintro back' hback'
        rw [getLast_cons, hlast] at hback'
        obtain rfl : back = back' := Option.some.inj hback'
        exact List.isChain_pair.mpr ⟨toNat_eq_add_of_sub hnext.1 (hadmits hnext.1 hnext.2), hnext.2⟩
      · exact ⟨s, rfl, h⟩

theorem addHeaders (h : s.Follows base) {syncLs first : Header} {rest : List Header}
    (hchain : (syncLs :: first :: rest).IsChain Linked)
    (hcurrent : match s.headers.getLast? with
      | none => syncLs.now = s.last.now ∧ syncLs.nowhash = s.last.nowhash
      | some back => back.now = syncLs.now → back.nowhash = syncLs.nowhash) :
    ∃ s', s.addHeaders (first :: rest) = .ok s' ∧ s'.Follows base := by
  rw [Sync.addHeaders]
  cases s.doSync with
  | false => exact ⟨s, rfl, h⟩
  | true =>
      rw [if_neg (by decide)]
      cases hlast : s.headers.getLast? with
      | none =>
          simp only [hlast] at hcurrent
          have hnil := List.getLast?_eq_none_iff.mp hlast
          have hadded := @append s base h (first :: rest) fun back hback => by
            rw [hnil, h.base_eq_last hnil] at hback
            obtain rfl : s.last = back := Option.some.inj hback
            exact isChain_linked_congr hcurrent.1 hcurrent.2 hchain
          rw [hnil] at hadded
          exact ⟨_, rfl, hadded.chain, hadded.loaded⟩
      | some back =>
          simp only [hlast] at hcurrent ⊢
          have htime := hchain.rel.1
          have hfirst : first.now - blockSec = syncLs.now := by
            rw [eq_add_of_toNat htime, UInt32.add_sub_cancel]
          by_cases hnow : back.now = syncLs.now
          · have hall : (first :: rest).dropWhile (·.now ≤ back.now) = first :: rest := by
              refine List.dropWhile_cons_of_neg ?_
              rw [decide_eq_true_eq, UInt32.le_iff_toNat_le, hnow, htime]
              exact Nat.not_le.mpr (Nat.lt_add_of_pos_right (by decide))
            have hadded := @append s base h (first :: rest) fun back' hback' => by
              rw [getLast_cons, hlast] at hback'
              obtain rfl : back = back' := Option.some.inj hback'
              exact isChain_linked_congr hnow.symm (hcurrent hnow).symm hchain
            refine ⟨_, if_neg (not_not.mpr (hnow.trans hfirst.symm)), ?_⟩
            rw [hall]
            exact ⟨hadded.chain, hadded.loaded⟩
          · exact ⟨s, if_pos (by rwa [hfirst]), h⟩

theorem loadBlock (h : s.Follows base) : ∃ s', s.loadBlock = .ok s' ∧ s'.Follows base := by
  have hpending := h.chained.pending
  rw [Sync.loadBlock]
  cases hdrop : s.headers.drop s.block with
  | nil => exact ⟨s, rfl, h⟩
  | cons header rest =>
      rw [hdrop] at hpending
      have hnow : header.now = s.last.now + blockSec := eq_add_of_toNat hpending.rel.1
      refine ⟨_, if_neg (not_not.mpr hnow), h.chain, ?_⟩
      rw [List.getElem?_cons_succ, ← List.head?_drop, hdrop, List.head?_cons]

/-- An admitted step returns and keeps the list a chain. -/
theorem step (h : s.Follows base) (c : Crypto) {event : SyncEvent} (hadmits : s.Admits event) :
    ∃ s', s.step c event = .ok s' ∧ ∃ base', s'.Follows base' := by
  cases event with
  | nextHeader link start oldhash =>
      obtain ⟨s', hstep, hfollows⟩ := h.addNextHeader c hadmits
      exact ⟨s', hstep, base, hfollows⟩
  | lastHeader peer syncHs => exact ⟨_, rfl, base, h.chain, h.loaded⟩
  | headers peer head oldhash links =>
      rw [Sync.step]
      cases hpeer : s.syncLs peer with
      | none => exact ⟨s, rfl, base, h⟩
      | some syncLs =>
          have hcurrent := hadmits syncLs hpeer
          obtain ⟨batch, hread, hlinked⟩ := readHeaders_linked c oldhash links
            fun hlt => (hcurrent hlt).1
          simp only [hread, bind, Except.bind]
          cases batch with
          | none => exact ⟨s, rfl, base, h⟩
          | some peerHeaders =>
              obtain ⟨hlt, first, rest, rfl, hchain⟩ := hlinked peerHeaders rfl
              obtain ⟨s', hstep, hfollows⟩ := h.addHeaders hchain (hcurrent hlt).2
              exact ⟨s', hstep, base, hfollows⟩
  | loadBlock =>
      obtain ⟨s', hstep, hfollows⟩ := h.loadBlock
      exact ⟨s', hstep, base, hfollows⟩
  | finish => exact ⟨_, rfl, s.last, .singleton _, rfl⟩

end Sync.Follows

/-- In a run whose steps are all admitted every step returns, so that the end of an
empty list is never read, and every state reached has the chain. -/
theorem Sync.run_chained (c : Crypto) (last : Header) (events : List SyncEvent)
    (hadmits : ∀ pre event post s, events = pre ++ event :: post →
      (Sync.start last).run c pre = .ok s → s.Admits event) :
    ∃ s, (Sync.start last).run c events = .ok s ∧ s.Chained := by
  obtain ⟨s, hrun, base, hfollows⟩ := foldlM_total (f := Sync.step c)
    (fun s => ∃ base, s.Follows base) ⟨last, .singleton _, rfl⟩
    fun pre event post s hevents hrun ⟨base, hfollows⟩ =>
      hfollows.step c (hadmits pre event post s hevents hrun)
  exact ⟨s, hrun, hfollows.chained⟩

namespace Sample

/-- Cryptography of the examples: every digest is the number of bytes hashed. -/
def lengthCrypto : Crypto where
  sha256 bytes := bytes.length
  signOpen _ _ _ := true
  strayLength _ := none

def firstHeader : Header := .loadhead lengthCrypto { now := 1024 }

end Sample

/-- A node receives two headers one after the other and loads the first block in
between. -/
theorem Sync.run_chained_two :
    ∃ s, (Sync.start Sample.firstHeader).run Sample.lengthCrypto
      [.nextHeader {} 1536 64, .loadBlock, .nextHeader {} 2048 64] = .ok s ∧ s.Chained := by
  apply Sync.run_chained
  rintro pre event post s hevents hrun
  rcases pre with _ | ⟨_, _ | ⟨_, _ | ⟨_, pre⟩⟩⟩
  · cases hevents
    cases hrun
    exact ⟨by decide, by decide⟩
  · cases hevents
    trivial
  · cases hevents
    cases hrun
    intro _ _
    decide
  · exact absurd (congrArg List.length hevents) (by simp)

/-- One header sent by a peer to a node whose list is empty: with another hash than the
last block's the end of the empty list is read, and with that hash any time is taken. -/
theorem Sync.run_not_chained :
    (Sync.start Sample.firstHeader).run Sample.lengthCrypto [.nextHeader {} 1536 1] =
        .error .emptyBack ∧
      ∃ s, (Sync.start Sample.firstHeader).run Sample.lengthCrypto [.nextHeader {} 7 64] = .ok s ∧
        ¬ s.Chained := by
  refine ⟨rfl, _, rfl, fun h => ?_⟩
  exact absurd h.pending.rel.1 (by decide)

end Esc
