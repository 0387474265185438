import Menoetius.LookupAgree
import Menoetius.Query

/-
This file shows what a client learns from the answer to a query.
-/

namespace Menoetius
open LittleEndian

/-- The keys and the status that a client reads from an answer. -/
structure Answer where
  keys : List (List UInt8)
  status : Option UInt8

def readAnswer (bytes : List UInt8) : Answer := ⟨readKeys bytes.length bytes, bytes.getLast?⟩

theorem readAnswer_queryResponse (fullScan : Bool) (status last : Nat) {items : List IndexItem}
    (keys : ∀ item ∈ items, item.keyBytes.length ≠ 0 ∧ item.keyBytes.length < 2 ^ 16) :
    readAnswer (queryResponse fullScan status (resultsOf items) last) =
      ⟨items.map IndexItem.keyBytes, some (UInt8.ofNat status)⟩ := by
  have none : valueOf ((prefixed [] ++ ((if fullScan then bytesOf 8 last else []) ++ bytesOf 1 status)).take 2) = 0 :=
    rfl
  have ends : (queryResponse fullScan status (resultsOf items) last).getLast? = some (UInt8.ofNat status) := by
    rw [queryResponse, ← List.append_assoc, ← List.append_assoc]
    exact List.getLast?_concat
  rw [readAnswer, ends]
  refine congrArg₂ Answer.mk (readKeys_append keys none ?_) rfl
  rw [queryResponse, List.length_append]
  exact Nat.le_add_right _ _

/-- The two answers have one status and the same keys, or the handler fails in the same way. -/
def SameOutcome (first second : Except Failure Answer) : Prop :=
  (∃ failure, first = .error failure ∧ second = .error failure) ∨
    ∃ left right, first = .ok left ∧ second = .ok right ∧ left.status = right.status ∧
      ∀ key, key ∈ left.keys ↔ key ∈ right.keys

/-- No index is selected and no scan is allowed. -/
def Query.Missing (query : Query) : Prop :=
  query.forceFullScan = false ∧ query.matchers.indexNum = none ∧ query.allowFullScan = false

instance (query : Query) : Decidable query.Missing := inferInstanceAs (Decidable (_ ∧ _))

section
variable {σ : Type} (calls : StorageCalls σ)

/-- What a client learns from the handler, or the failure that ends the connection. -/
def handleConnQueryOutcome (data : Conn σ) : Except Failure Answer :=
  match handleConnQueryLfms calls data with
  | .ok _ after => .ok (readAnswer (after.ss.outgoing.drop data.ss.output.length))
  | .error failure _ => .error failure

/-- The outcome of a query that asks for some items. -/
def outcomeOf (data : Conn σ) (query : Query) (items : List IndexItem) : Except Failure Answer :=
  if query.Missing then .ok ⟨[], some (UInt8.ofNat (statusOf data statusMissingIndex))⟩
  else if (resultsOf items).length ≤ connBufSize then
    .ok ⟨items.map IndexItem.keyBytes, some (UInt8.ofNat (statusOf data 0))⟩
  else if (resultsOf items).length ≤ maxLfmResults then .error (.code .structuredStreamBufTooSmall)
  else .ok ⟨[], some (UInt8.ofNat (statusOf data statusTooManyMetrics))⟩

end

section
variable {σ : Type} {calls : StorageCalls σ} {view : σ → Indexes} {data : Conn σ} {request : QueryRequest}
  {items : List IndexItem}

theorem handleConnQueryOutcome_sent {after : Conn σ} {fullScan : Bool} {status last : Nat} {found : List IndexItem}
    (run : handleConnQueryLfms calls data = .ok () after)
    (sent : after.ss.outgoing = data.ss.output ++ queryResponse fullScan status (resultsOf found) last)
    (keys : ∀ item ∈ found, item.keyBytes.length ≠ 0 ∧ item.keyBytes.length < 2 ^ 16) :
    handleConnQueryOutcome calls data = .ok ⟨found.map IndexItem.keyBytes, some (UInt8.ofNat status)⟩ := by
  rw [handleConnQueryOutcome, run]
  dsimp only
  rw [sent, List.drop_left, readAnswer_queryResponse fullScan status last keys]

/-- The items that a query asks for are items of the storage. -/
theorem Indexes.Consistent.of_queried {store : Indexes} (consistent : store.Consistent items []) {query : Query}
    (selects : query.matchers.Selects (store.indices.map CString.bytes)) {item : IndexItem}
    (mem : item ∈ store.queried query) : item ∈ items := by
  rw [Indexes.queried] at mem
  cases chosen : query.lookupIndex with
  | none =>
      rw [chosen] at mem
      obtain ⟨front, split, _⟩ := Indexes.scanItems_suffix consistent query.start
      rw [split]
      exact List.mem_append_right _ (List.mem_of_mem_filter (List.mem_of_mem_drop (List.mem_of_mem_take mem)))
  | some indexNum =>
      rw [chosen] at mem
      have selected : query.matchers.indexNum = some indexNum := by
        rw [Query.lookupIndex] at chosen
        split at chosen
        · cases chosen
        · exact chosen
      have valid : store.LookupIndex indexNum := by
        have bound := selects indexNum selected
        rwa [List.length_map] at bound
      exact List.mem_of_mem_filter
        ((consistent.matched_perm valid _ _ _).mem_iff.mp (List.mem_of_mem_drop (List.mem_of_mem_take mem)))

/-- The outcome depends on the items that the query asks for. -/
theorem handleConnQueryOutcome_eq (looks : LooksUp calls view) (consistent : (view data.storage).Consistent items [])
    (configured : calls.indices = (view data.storage).indices.map CString.bytes) (asked : data.Asked request)
    (wellFormed : request.WellFormed) (zero : request.offset = 0) :
    handleConnQueryOutcome calls data =
      outcomeOf data (request.query calls.indices)
        ((view data.storage).queried (request.query calls.indices)) := by
  obtain ⟨ss, read, valid, write, output⟩ := @Conn.Asked.query σ calls data request asked wellFormed
  have selects := queried_selects calls.indices request
  have keys : ∀ item ∈ (view data.storage).queried (request.query calls.indices),
      item.keyBytes.length ≠ 0 ∧ item.keyBytes.length < 2 ^ 16 := fun item mem =>
    consistent.keyLength (consistent.of_queried (configured ▸ selects) mem)
  have reported : ∀ err status part last,
      handleConnQueryLookup calls (request.query calls.indices) data.storage = .ok (some err, part, last) data.storage →
      status = statusOf data (queryErrorCode (some err)) →
      handleConnQueryOutcome calls data = .ok ⟨[], some (UInt8.ofNat status)⟩ := by
    rintro err status part last found rfl
    obtain ⟨after, run, sent⟩ := handleConnQueryAnswer_end
      ((request.query calls.indices).forceFullScan || (request.query calls.indices).allowFullScan)
      (statusOf data (queryErrorCode (some err))) err part last (by decide : 8 ≤ connBufSize) ss valid write.ge
    rw [output] at sent
    have handled : handleConnQueryLfms calls data = .ok () { data with ss := after } := by
      rw [handleConnQueryLfms_eq read found]
      exact onStream_ok run
    exact @handleConnQueryOutcome_sent σ calls data { data with ss := after } _ _ last [] handled sent nofun
  rw [outcomeOf]
  by_cases missing : (request.query calls.indices).Missing
  · rw [if_pos missing]
    obtain ⟨unforced, none, denied⟩ := missing
    refine reported .badIndex _ [] 0 ?_ rfl
    have free : ¬ 0 < (request.query calls.indices).offset := Nat.not_lt.mpr zero.le
    rw [handleConnQueryLookup, if_neg (by rw [unforced]; exact Bool.false_ne_true), none]
    dsimp only
    rw [if_neg free, if_neg (by rw [denied]; exact Bool.false_ne_true)]
    rfl
  · rw [if_neg missing]
    have accepted : (request.query calls.indices).Accepted := by
      by_cases forced : (request.query calls.indices).forceFullScan = true
      · exact Or.inl forced
      · by_cases none : (request.query calls.indices).matchers.indexNum = none
        · refine Or.inr (Or.inr ⟨?_, zero⟩)
          by_contra denied
          exact missing ⟨Bool.not_eq_true _ ▸ forced, none, Bool.not_eq_true _ ▸ denied⟩
        · exact Or.inr (Or.inl none)
    rcases handleConnQueryLookup_run looks consistent configured accepted selects with
      ⟨fits, found⟩ | ⟨large, part, last, found⟩
    · by_cases small : (resultsOf ((view data.storage).queried (request.query calls.indices))).length ≤ connBufSize
      · rw [if_pos small]
        obtain ⟨after, run, sent⟩ := handleConnQueryAnswer_sends
          ((request.query calls.indices).forceFullScan || (request.query calls.indices).allowFullScan)
          (statusOf data 0) ((view data.storage).queriedId (request.query calls.indices)) (by decide : 8 ≤ connBufSize)
          small ss valid write.ge
        rw [output] at sent
        have handled : handleConnQueryLfms calls data = .ok () { data with ss := after } := by
          rw [handleConnQueryLfms_eq read found]
          exact onStream_ok run
        exact handleConnQueryOutcome_sent handled sent keys
      · obtain ⟨after, failed, _⟩ := handleConnQueryLfms_fails looks consistent configured asked wellFormed accepted
          (Nat.not_le.mp small) fits
        rw [if_neg small, if_pos fits, handleConnQueryOutcome, failed]
    · have outside : ¬ (resultsOf ((view data.storage).queried (request.query calls.indices))).length ≤ connBufSize :=
        Nat.not_le.mpr (lt_trans (by decide) large)
      rw [if_neg outside, if_neg (Nat.not_le.mpr large)]
      exact reported .bufTooSmall _ part last found rfl

end

end Menoetius
