import Esc.Lib.Matching
import Esc.Lib.Residue
import Esc.Server.CommitBlock

/-!
# Remote accounts

`commit_block` pairs requests for accounts in another bank with the answers of that bank.
A request waits in the queue of its class: the two banks, the requesting account and the
key. An answer takes the first request of its class, and the funds of the request go to
the new account; the funds of the requests that are left go back.
-/

namespace Esc

open Lib

/-- The class of a request. -/
def requestClass (key : UInt64) (tx : Usr) : Uin where
  bbank := tx.bbank
  abank := ppiAbank key
  auser := tx.auser
  pkey := tx.pkey

/-- The class of the requests that an answer can take. -/
def answerClass (key : UInt64) (tx : Uok) : Uin where
  bbank := ppiAbank key
  abank := tx.bbank
  auser := tx.buser
  pkey := tx.pkey

/-- The queues before the first answer: the requests with their classes. -/
def requestQueues (usr : Map UInt64 Usr) : List (Uin × UInt64) :=
  usr.toList.map fun p => (requestClass p.1 p.2, p.1)

/-- The requests of a block with their answers, and the requests that are left. -/
def answerRequests (blk : Requests) : List (UInt64 × (UInt64 × Uok)) × List (Uin × UInt64) :=
  serve (fun p => answerClass p.1 p.2) (requestQueues blk.usr) blk.uok.toList

/-- The account that an answer has created. -/
def answeredAccount (p : UInt64 × Uok) : UInt64 := markedKey (ppiAbank p.1) p.2.auser

/-- The account that has made a request. -/
def requestingAccount (u : Uin) : UInt64 := markedKey u.abank u.auser

/-- The accounts that the funds of the requests go to, one for each request. -/
def requestFunds (blk : Requests) : List UInt64 :=
  (answerRequests blk).1.map (fun p => answeredAccount p.2) ++
    (answerRequests blk).2.map (fun w => requestingAccount w.1)

/-- Add the funds of one request to the deposits. -/
def fundRequest (deposit : Map UInt64 Int64) (account : UInt64) : Map UInt64 Int64 :=
  deposit.adjust account (· + userMinMass)

/-- The profit of the bank that answers a request. -/
def feeAnswer (fees : Table Int64) (p : UInt64 × Uok) : Table Int64 :=
  fees.modify (ppiAbank p.1).toNat (· + bankProfit txsRusFee)

theorem waiting_eq (usr : Map UInt64 Usr) : waiting usr = (requestQueues usr).map Prod.fst := by
  rw [waiting, requestQueues, List.map_map]
  rfl

theorem uokStep_of_mem {s : State} {uin : List Uin} {key : UInt64} {tx : Uok}
    (h : answerClass key tx ∈ uin) :
    uokStep (s, uin) key tx =
      ({ s with
          deposit := fundRequest s.deposit (answeredAccount (key, tx))
          bankFee := feeAnswer s.bankFee (key, tx) }, uin.erase (answerClass key tx)) :=
  if_pos h

theorem uokStep_of_not_mem {s : State} {uin : List Uin} {key : UInt64} {tx : Uok}
    (h : answerClass key tx ∉ uin) : uokStep (s, uin) key tx = (s, uin) :=
  if_neg h

/-- The loop over the answers: deposits, profits and queues. -/
theorem foldl_uokStep (s : State) (queues : List (Uin × UInt64)) (answers : List (UInt64 × Uok)) :
    answers.foldl (fun acc p => uokStep acc p.1 p.2) (s, queues.map Prod.fst) =
      ({ s with
          deposit := (serve (fun p => answerClass p.1 p.2) queues answers).1.foldl
            (fun d p => fundRequest d (answeredAccount p.2)) s.deposit
          bankFee := (serve (fun p => answerClass p.1 p.2) queues answers).1.foldl
            (fun fees p => feeAnswer fees p.2) s.bankFee },
        (serve (fun p => answerClass p.1 p.2) queues answers).2.map Prod.fst) := by
  induction answers generalizing s queues with
  | nil => rfl
  | cons p answers ih =>
      rw [List.foldl_cons]
      cases hfind : queues.find? fun w => w.1 = answerClass p.1 p.2 with
      | some w =>
        have hmem : answerClass p.1 p.2 ∈ queues.map Prod.fst := by
          refine List.mem_map.mpr ⟨w, List.mem_of_find?_eq_some hfind, ?_⟩
          simpa using List.find?_some hfind
        have herase : (queues.map Prod.fst).erase (answerClass p.1 p.2) =
            (queues.eraseP fun w => w.1 = answerClass p.1 p.2).map Prod.fst := by
          rw [List.erase_eq_eraseP, List.eraseP_map]
          congr 2
          funext w
          exact decide_eq_decide.mpr eq_comm
        rw [uokStep_of_mem hmem, herase, ih,
          serve_of_find (fun p : UInt64 × Uok => answerClass p.1 p.2) answers hfind]
        rfl
      | none =>
        have hnot : answerClass p.1 p.2 ∉ queues.map Prod.fst := by
          intro hmem
          obtain ⟨w, hw, hclass⟩ := List.mem_map.mp hmem
          simpa [hclass] using List.find?_eq_none.mp hfind w hw
        rw [uokStep_of_not_mem hnot, ih,
          serve_of_find_none (fun p : UInt64 × Uok => answerClass p.1 p.2) answers hfind]

/-- What is left goes back. -/
theorem foldl_refund (s : State) (left : List (Uin × UInt64)) :
    (left.map Prod.fst).foldl (fun s u => s.addDeposit u.abank u.auser userMinMass) s =
      { s with
        deposit := left.foldl (fun d w => fundRequest d (requestingAccount w.1)) s.deposit } := by
  induction left generalizing s with
  | nil => rfl
  | cons w left ih => exact ih _

/-- The three loops. -/
theorem commitUsers_eq_funds (s : State) :
    commitUsers s = { s with
      deposit := (requestFunds s.blk).foldl fundRequest s.deposit
      bankFee := (answerRequests s.blk).1.foldl (fun fees p => feeAnswer fees p.2) s.bankFee } := by
  have hloop := foldl_uokStep s (requestQueues s.blk.usr) s.blk.uok.toList
  rw [commitUsers, Std.ExtTreeMap.foldl_eq_foldl_toList, waiting_eq, hloop]
  dsimp only
  rw [foldl_refund, requestFunds, List.foldl_append, List.foldl_map, List.foldl_map]
  rfl

/-- The deposits grow by the funds of the requests. -/
theorem total_fundRequest (deposit : Map UInt64 Int64) (accounts : List UInt64) :
    (accounts.foldl fundRequest deposit).total (fun _ d => residue d) =
      deposit.total (fun _ d => residue d) + accounts.length * residue userMinMass := by
  induction accounts generalizing deposit with
  | nil => simp
  | cons account accounts ih =>
      rw [List.foldl_cons, ih, fundRequest, Map.total_adjust _ _ _ residue_zero, residue_add,
        List.length_cons]
      push_cast
      ring

theorem length_requestFunds (blk : Requests) : (requestFunds blk).length = blk.usr.size := by
  have hperm := (serve_perm (fun p : UInt64 × Uok => answerClass p.1 p.2) (requestQueues blk.usr)
    blk.uok.toList).length_eq
  rw [requestQueues, List.length_map, Std.ExtTreeMap.length_toList] at hperm
  rw [requestFunds, List.length_append, List.length_map, List.length_map, ← hperm,
    List.length_append, List.length_map]
  rfl

/-- Requests for remote accounts are matched with the answers of their class as far as
these go, each one once; the others are paid back. -/
theorem commitUsers_matches (s : State) :
    ((answerRequests s.blk).1.map (fun p => (answerClass p.2.1 p.2.2, p.1)) ++
        (answerRequests s.blk).2).Perm (requestQueues s.blk.usr) ∧
      ((requestQueues s.blk.usr).map Prod.snd).Nodup ∧
      ((answerRequests s.blk).1.map Prod.snd).Sublist s.blk.uok.toList ∧
      (s.blk.uok.toList.map Prod.fst).Nodup ∧
      (∀ c, (answerRequests s.blk).1.countP (fun p => answerClass p.2.1 p.2.2 = c) =
        min ((requestQueues s.blk.usr).countP fun w => w.1 = c)
          (s.blk.uok.toList.countP fun p => answerClass p.1 p.2 = c)) ∧
      (commitUsers s).deposit = (requestFunds s.blk).foldl fundRequest s.deposit ∧
      (requestFunds s.blk).length = s.blk.usr.size ∧
      (commitUsers s).deposit.total (fun _ d => residue d) =
        s.deposit.total (fun _ d => residue d) + s.blk.usr.size * residue userMinMass := by
  have hdeposit : (commitUsers s).deposit = (requestFunds s.blk).foldl fundRequest s.deposit := by
    rw [commitUsers_eq_funds]
  have hkeys : (requestQueues s.blk.usr).map Prod.snd = s.blk.usr.toList.map Prod.fst := by
    rw [requestQueues, List.map_map]
    rfl
  have hperm := serve_perm (fun p : UInt64 × Uok => answerClass p.1 p.2) (requestQueues s.blk.usr)
    s.blk.uok.toList
  have hanswers := serve_sublist (fun p : UInt64 × Uok => answerClass p.1 p.2)
    (requestQueues s.blk.usr) s.blk.uok.toList
  have hcount := serve_count (fun p : UInt64 × Uok => answerClass p.1 p.2)
    (requestQueues s.blk.usr) s.blk.uok.toList
  refine ⟨hperm, ?_, hanswers, Map.nodup_keys _, hcount, hdeposit, length_requestFunds _, ?_⟩
  · rw [hkeys]
    exact Map.nodup_keys _
  · rw [hdeposit, total_fundRequest, length_requestFunds]

end Esc
