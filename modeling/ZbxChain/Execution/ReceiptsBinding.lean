import ZbxChain.Bridge.ReceiptProofs
import ZbxChain.Crypto.Inclusion

/-! # What the receipts root binds

The encoding of a receipt tells its status, cumulative gas, bloom and logs. The root tells the
receipts at the places of the perfect tree, where the last node of an odd layer stands twice: a
list and the same list with its last receipts repeated have one root.
-/
namespace ZbxChain
open PerfectTree MerkleTree

def Log.committed (log : Log) : Address × List H256 × List UInt8 := (log.address,log.topics,log.data)

def TransactionReceipt.committed (r : TransactionReceipt) :
    Bool × UInt64 × BitVec 2048 × List (Address × List H256 × List UInt8) :=
  (r.success,r.cumulativeGasUsed,r.logsBloom,r.logs.map Log.committed)

/-- The lists of the receipt are as long as a `Vec` can be. -/
structure TransactionReceipt.InMemory (r : TransactionReceipt) : Prop where
  logs : r.logs.length < 2 ^ 64
  topics : ∀ log ∈ r.logs, log.topics.length < 2 ^ 64
  data : ∀ log ∈ r.logs, log.data.length < 2 ^ 64

theorem flatten_asBytes_inj {xs ys : List H256} (hlength : xs.length = ys.length)
    (h : (xs.map H256.asBytes).flatten = (ys.map H256.asBytes).flatten) : xs = ys := by
  induction xs generalizing ys with
  | nil => exact (List.length_eq_zero_iff.mp hlength.symm).symm
  | cons x xs ih =>
    cases ys with
    | nil => simp at hlength
    | cons y ys =>
      obtain ⟨hx,hxs⟩ := List.append_inj h (by simp)
      have hsame : x = y := by simpa using congrArg H256.fromSlice hx
      rw [hsame, ih (by simpa using hlength) hxs]

theorem beBytes64_length_inj {m n : ℕ} (hm : m < 2 ^ 64) (hn : n < 2 ^ 64)
    (h : beBytes64 (UInt64.ofNat m) = beBytes64 (UInt64.ofNat n)) : m = n := by
  have hsame := congrArg UInt64.toNat (Bytes.bytesBE_uint64_inj h)
  simp only [UInt64.toNat_ofNat'] at hsame
  omega

theorem Log.canonicalBytes_append_inj {log log' : Log} {rest rest' : List UInt8}
    (htopics : log.topics.length < 2 ^ 64) (htopics' : log'.topics.length < 2 ^ 64)
    (hdata : log.data.length < 2 ^ 64) (hdata' : log'.data.length < 2 ^ 64)
    (h : log.canonicalBytes ++ rest = log'.canonicalBytes ++ rest') :
    log.committed = log'.committed ∧ rest = rest' := by
  simp only [Log.canonicalBytes, List.append_assoc] at h
  obtain ⟨haddress,h⟩ := List.append_inj h (by simp)
  obtain ⟨hcount,h⟩ := List.append_inj h (by simp)
  have hlength := beBytes64_length_inj htopics htopics' hcount
  obtain ⟨htops,h⟩ := List.append_inj h (by
    simp [List.length_flatten, List.map_map, Function.comp_def, hlength])
  obtain ⟨hsize,h⟩ := List.append_inj h (by simp)
  obtain ⟨hbytes,hrest⟩ := List.append_inj h (beBytes64_length_inj hdata hdata' hsize)
  refine ⟨?_,hrest⟩
  have haddr : log.address = log'.address := Bytes.bytesBE_bitVec_inj (k := 20) haddress
  simp [Log.committed, haddr, flatten_asBytes_inj hlength htops, hbytes]

theorem logs_inj {logs logs' : List Log} (hlength : logs.length = logs'.length)
    (hlogs : ∀ log ∈ logs, log.topics.length < 2 ^ 64 ∧ log.data.length < 2 ^ 64)
    (hlogs' : ∀ log ∈ logs', log.topics.length < 2 ^ 64 ∧ log.data.length < 2 ^ 64)
    (h : (logs.map Log.canonicalBytes).flatten = (logs'.map Log.canonicalBytes).flatten) :
    logs.map Log.committed = logs'.map Log.committed := by
  induction logs generalizing logs' with
  | nil =>
    obtain rfl := List.length_eq_zero_iff.mp hlength.symm
    rfl
  | cons log logs ih =>
    cases logs' with
    | nil => simp at hlength
    | cons log' logs' =>
      obtain ⟨htopics,hdata⟩ := hlogs log List.mem_cons_self
      obtain ⟨htopics',hdata'⟩ := hlogs' log' List.mem_cons_self
      obtain ⟨hfirst,hrest⟩ := Log.canonicalBytes_append_inj htopics htopics' hdata hdata' h
      have htail := ih (by simpa using hlength) (fun l hl => hlogs l (List.mem_cons_of_mem _ hl))
        (fun l hl => hlogs' l (List.mem_cons_of_mem _ hl)) hrest
      simp [hfirst, htail]

theorem TransactionReceipt.canonicalBytes_inj {r r' : TransactionReceipt} (hr : r.InMemory)
    (hr' : r'.InMemory) (h : r.canonicalBytes = r'.canonicalBytes) : r.committed = r'.committed := by
  obtain ⟨hstatus,h⟩ := List.cons.inj h
  simp only [List.append_assoc] at h
  obtain ⟨hgas,h⟩ := List.append_inj h (by simp)
  obtain ⟨hbloom,h⟩ := List.append_inj h (by simp)
  obtain ⟨hcount,hlogs⟩ := List.append_inj h (by simp)
  have hlength := beBytes64_length_inj hr.logs hr'.logs hcount
  have hsuccess : r.success = r'.success := by
    cases hs : r.success <;> cases hs' : r'.success <;> simp_all
  have hgas' := Bytes.bytesBE_uint64_inj hgas
  have hbloom' : r.logsBloom = r'.logsBloom := Bytes.bytesBE_bitVec_inj (k := 256) hbloom
  have hlogs' := logs_inj hlength (fun l hl => ⟨hr.topics l hl,hr.data l hl⟩)
    (fun l hl => ⟨hr'.topics l hl,hr'.data l hl⟩) hlogs
  simp [TransactionReceipt.committed, hsuccess, hgas', hbloom', hlogs']

theorem TransactionReceipt.canonicalBytes_congr {r r' : TransactionReceipt}
    (h : r.committed = r'.committed) : r.canonicalBytes = r'.canonicalBytes := by
  simp only [TransactionReceipt.committed, Prod.mk.injEq] at h
  obtain ⟨hsuccess,hgas,hbloom,hlogs⟩ := h
  have hlength := congrArg List.length hlogs
  simp only [List.length_map] at hlength
  have hbytes : ∀ logs : List Log, logs.map Log.canonicalBytes = (logs.map Log.committed).map (fun log =>
      log.1.asBytes ++ beBytes64 (UInt64.ofNat log.2.1.length) ++ (log.2.1.map H256.asBytes).flatten ++
        beBytes64 (UInt64.ofNat log.2.2.length) ++ log.2.2) := by
    intro logs
    rw [List.map_map]
    rfl
  rw [TransactionReceipt.canonicalBytes, TransactionReceipt.canonicalBytes, hsuccess, hgas, hbloom,
    hlength, hbytes, hbytes, hlogs]

theorem TransactionReceipt.canonicalBytes_ne_nodeInput (r : TransactionReceipt) (left right : H256) :
    nodeInput left right ≠ r.canonicalBytes := by
  intro h
  have hlength := congrArg List.length h
  simp [nodeInput, TransactionReceipt.canonicalBytes] at hlength
  omega

section Root
variable {P : Platform} {receipts receipts' : List TransactionReceipt} {E : Set (List UInt8)}

variable (P receipts receipts') in
def rootsInputs : Set (List UInt8) :=
  {input | (∃ r ∈ receipts ++ receipts', input = r.canonicalBytes) ∨
    input ∈ (receiptsTree P receipts).inputs ∨ input ∈ (receiptsTree P receipts').inputs}

theorem exists_receiptAt (hne : receipts ≠ []) (place : ℕ) : ∃ r ∈ receipts,
    receipts[standing (height receipts.length) receipts.length place]? = some r ∧
      leafAt (receipts.map (computeReceiptHash P)) place = P.keccak256 r.canonicalBytes := by
  have hstands := standing_lt (k := height receipts.length) (List.length_pos_iff.mpr hne) place
  exact ⟨_,List.getElem_mem hstands,List.getElem?_eq_getElem hstands,by
    simp [leafAt, List.getElem?_eq_getElem hstands, computeReceiptHash]⟩

theorem computeReceiptsRoot_eq_fold (hne : receipts ≠ []) : computeReceiptsRoot P receipts =
    fold (combineHashes P) (height receipts.length) (leafAt (receipts.map (computeReceiptHash P))) := by
  have hhashes : receipts.map (computeReceiptHash P) ≠ [] := by simpa using hne
  simpa using (computeReceiptsRoot_eq hne).trans (root_eq_fold (P := P) hhashes)

theorem computeReceiptsRoot_ne_zero (hne : receipts ≠ [])
    (hreceipts : ∀ r ∈ receipts, P.keccak256 r.canonicalBytes ≠ H256.zero)
    (htree : ∀ input ∈ (receiptsTree P receipts).inputs, P.keccak256 input ≠ H256.zero) :
    computeReceiptsRoot P receipts ≠ H256.zero := by
  by_cases hlong : 2 ≤ receipts.length
  · have hmany : 2 ≤ (receipts.map (computeReceiptHash P)).length := by simpa using hlong
    obtain ⟨input,hinput,-,hroot⟩ := exists_input_root (P := P) hmany
    rw [computeReceiptsRoot_eq hne, receiptsTree, hroot]
    exact htree input hinput
  · obtain ⟨r,rfl⟩ := List.length_eq_one_iff.mp
      (show receipts.length = 1 by have := List.length_pos_iff.mpr hne; omega)
    exact hreceipts r List.mem_cons_self

/-- Two lists have one root exactly if they are one list at the places of the perfect tree. -/
theorem computeReceiptsRoot_inj (hfits : ∀ r ∈ receipts ++ receipts', r.InMemory)
    (hkeccak : Set.InjOn P.keccak256 (rootsInputs P receipts receipts'))
    (hne : receipts ≠ []) (hne' : receipts' ≠ []) :
    computeReceiptsRoot P receipts = computeReceiptsRoot P receipts' ↔
      completed (receipts.map TransactionReceipt.committed) =
        completed (receipts'.map TransactionReceipt.committed) := by
  have hencoded : ∀ r ∈ receipts ++ receipts', r.canonicalBytes ∈ rootsInputs P receipts receipts' :=
    fun r hr => Or.inl ⟨r,hr,rfl⟩
  have hpairs : ∀ rs, rs ≠ [] → (∀ input ∈ (receiptsTree P rs).inputs,
      input ∈ rootsInputs P receipts receipts') →
      pairs (combineHashes P) (height rs.length) (leafAt (rs.map (computeReceiptHash P))) ⊆
        {p | nodeInput p.1 p.2 ∈ rootsInputs P receipts receipts'} := by
    intro rs hrs hinputs p hp
    have hhashes : rs.map (computeReceiptHash P) ≠ [] := by simpa using hrs
    exact hinputs _ (hashed_of_pairs hhashes (Nat.le_succ _) (by simpa using hp))
  have hapart : ∀ rs, rs ≠ [] → (∀ r ∈ rs, r ∈ receipts ++ receipts') → ∀ place,
      Apart (combineHashes P) {p | nodeInput p.1 p.2 ∈ rootsInputs P receipts receipts'}
        (leafAt (rs.map (computeReceiptHash P)) place) := by
    intro rs hrs hmem place
    obtain ⟨r,hr,-,hleaf⟩ := exists_receiptAt (P := P) hrs place
    rw [hleaf]
    exact apart_of_injOn hkeccak (hencoded r (hmem r hr)) (fun l r' => r.canonicalBytes_ne_nodeInput l r')
  have hplace : ∀ place, (leafAt (receipts.map (computeReceiptHash P)) place =
      leafAt (receipts'.map (computeReceiptHash P)) place ↔
        (receipts.map TransactionReceipt.committed)[standing (height receipts.length) receipts.length place]? =
          (receipts'.map TransactionReceipt.committed)[standing (height receipts'.length) receipts'.length place]?) := by
    intro place
    obtain ⟨r,hr,hat,hleaf⟩ := exists_receiptAt (P := P) hne place
    obtain ⟨r',hr',hat',hleaf'⟩ := exists_receiptAt (P := P) hne' place
    rw [hleaf, hleaf', List.getElem?_map, List.getElem?_map, hat, hat', Option.map_some, Option.map_some,
      Option.some.injEq]
    have hin := List.mem_append_left receipts' hr
    have hin' := List.mem_append_right receipts hr'
    constructor
    · intro h
      exact TransactionReceipt.canonicalBytes_inj (hfits r hin) (hfits r' hin')
        (hkeccak (hencoded r hin) (hencoded r' hin') h)
    · intro h
      rw [TransactionReceipt.canonicalBytes_congr h]
  rw [computeReceiptsRoot_eq_fold hne, computeReceiptsRoot_eq_fold hne', completed_eq_iff]
  simp only [List.length_map]
  constructor
  · intro h
    obtain ⟨hheight,hleaves⟩ := fold_inj (binding_of_injOn hkeccak)
      (hpairs receipts hne (fun _ hinput => Or.inr (Or.inl hinput)))
      (hpairs receipts' hne' (fun _ hinput => Or.inr (Or.inr hinput)))
      (hapart receipts hne (fun r hr => List.mem_append_left _ hr))
      (hapart receipts' hne' (fun r hr => List.mem_append_right _ hr)) h
    exact ⟨hheight,fun place hlt => (hplace place).mp (hleaves place hlt)⟩
  · rintro ⟨hheight,hplaces⟩
    rw [fold_congr (fun place hlt => (hplace place).mpr (hplaces place hlt))]
    exact congrArg (fun k => fold (combineHashes P) k _) hheight

/-- The receipts root binds the receipts up to the repetition of last nodes: two lists have one
root exactly if they are one list at the places of the perfect tree, and then they are the same
list if they have one length or no receipt stands twice in either. -/
theorem receipts_root_binds (hfits : ∀ r ∈ receipts ++ receipts', r.InMemory)
    (hkeccak : Set.InjOn P.keccak256 (rootsInputs P receipts receipts'))
    (hzero : ∀ input ∈ rootsInputs P receipts receipts', P.keccak256 input ≠ H256.zero) :
    (computeReceiptsRoot P receipts = computeReceiptsRoot P receipts' ↔
      completed (receipts.map TransactionReceipt.committed) =
        completed (receipts'.map TransactionReceipt.committed)) ∧
    (computeReceiptsRoot P receipts = computeReceiptsRoot P receipts' →
      (receipts.length = receipts'.length ∨ (receipts.map TransactionReceipt.committed).Nodup ∧
        (receipts'.map TransactionReceipt.committed).Nodup) →
      receipts.map TransactionReceipt.committed = receipts'.map TransactionReceipt.committed) := by
  have hiff : computeReceiptsRoot P receipts = computeReceiptsRoot P receipts' ↔
      completed (receipts.map TransactionReceipt.committed) =
        completed (receipts'.map TransactionReceipt.committed) := by
    have hnonzero : ∀ rs, rs ≠ [] → (∀ r ∈ rs, r ∈ receipts ++ receipts') →
        (∀ input ∈ (receiptsTree P rs).inputs, input ∈ rootsInputs P receipts receipts') →
        computeReceiptsRoot P rs ≠ computeReceiptsRoot P [] := by
      intro rs hrs hmem hinputs
      exact computeReceiptsRoot_ne_zero hrs (fun r hr => hzero _ (Or.inl ⟨r,hmem r hr,rfl⟩))
        (fun input hinput => hzero input (hinputs input hinput))
    by_cases hne : receipts = []
    · by_cases hne' : receipts' = []
      · simp [hne, hne']
      · have hroot := hnonzero receipts' hne' (fun r hr => List.mem_append_right _ hr)
          (fun _ hinput => Or.inr (Or.inr hinput))
        rw [hne, List.map_nil, eq_comm, eq_comm (b := completed _), completed_nil_iff]
        simpa [hne'] using hroot
    · by_cases hne' : receipts' = []
      · have hroot := hnonzero receipts hne (fun r hr => List.mem_append_left _ hr)
          (fun _ hinput => Or.inr (Or.inl hinput))
        rw [hne', List.map_nil, completed_nil_iff]
        simpa [hne] using hroot
      · exact computeReceiptsRoot_inj hfits hkeccak hne hne'
  refine ⟨hiff,?_⟩
  intro hroot hcase
  have hcompleted := hiff.mp hroot
  refine eq_of_completed hcompleted ?_
  rcases hcase with hlength | ⟨hnodup,hnodup'⟩
  · simpa using hlength
  · by_cases hne : receipts.map TransactionReceipt.committed = []
    · rw [hne] at hcompleted ⊢
      rw [completed_nil_iff.mp hcompleted.symm]
    · have hne' : receipts'.map TransactionReceipt.committed ≠ [] := by
        intro hnil
        rw [hnil] at hcompleted
        exact hne (completed_nil_iff.mp hcompleted)
      have hle := length_le_of_completed hcompleted hne hnodup'
      have hge := length_le_of_completed hcompleted.symm hne' hnodup
      omega

end Root

section LastRepeated

def threeReceipts : List TransactionReceipt :=
  [Bridge.transferReceipt true 0,Bridge.transferReceipt false 1,Bridge.transferReceipt true 2]

def lastRepeated : List TransactionReceipt := threeReceipts ++ [Bridge.transferReceipt true 2]

theorem inMemory_lastRepeated : ∀ r ∈ threeReceipts ++ lastRepeated, r.InMemory := by
  intro r hr
  have hlogs : r.logs = [] := by
    have hall : ∀ r ∈ threeReceipts ++ lastRepeated, r.logs = [] := by decide
    exact hall r hr
  exact ⟨by simp [hlogs],by simp [hlogs],by simp [hlogs]⟩

theorem mem_rootsInputs {input : List UInt8}
    (h : input ∈ rootsInputs .integers threeReceipts lastRepeated) :
    input ∈ threeReceipts.map TransactionReceipt.canonicalBytes ++
      (receiptsTree .integers threeReceipts).inputs := by
  rcases h with ⟨r,hr,rfl⟩ | hinput | hinput
  · have hsame : ∀ r ∈ threeReceipts ++ lastRepeated, r ∈ threeReceipts := by decide +kernel
    exact List.mem_append_left _ (List.mem_map_of_mem (hsame r hr))
  · exact List.mem_append_right _ hinput
  · have hsame : ∀ input ∈ (receiptsTree .integers lastRepeated).inputs,
        input ∈ (receiptsTree .integers threeReceipts).inputs := by decide +kernel
    exact List.mem_append_right _ (hsame input hinput)

theorem injOn_rootsInputs :
    Set.InjOn Platform.integers.keccak256 (rootsInputs .integers threeReceipts lastRepeated) := by
  have hkeccak : ∀ input ∈ threeReceipts.map TransactionReceipt.canonicalBytes ++
        (receiptsTree .integers threeReceipts).inputs,
      ∀ input' ∈ threeReceipts.map TransactionReceipt.canonicalBytes ++
        (receiptsTree .integers threeReceipts).inputs,
      Platform.integers.keccak256 input = Platform.integers.keccak256 input' → input = input' := by
    decide +kernel
  exact fun input hinput input' hinput' =>
    hkeccak input (mem_rootsInputs hinput) input' (mem_rootsInputs hinput')

theorem nonzero_rootsInputs : ∀ input ∈ rootsInputs .integers threeReceipts lastRepeated,
    Platform.integers.keccak256 input ≠ H256.zero := by
  have hnonzero : ∀ input ∈ threeReceipts.map TransactionReceipt.canonicalBytes ++
      (receiptsTree .integers threeReceipts).inputs, Platform.integers.keccak256 input ≠ H256.zero := by
    decide +kernel
  exact fun input hinput => hnonzero input (mem_rootsInputs hinput)

/-- Three receipts, and the same three with the last one repeated, have one root. -/
theorem last_receipt_repeats :
    Set.InjOn Platform.integers.keccak256 (rootsInputs .integers threeReceipts lastRepeated) ∧
      (∀ input ∈ rootsInputs .integers threeReceipts lastRepeated,
        Platform.integers.keccak256 input ≠ H256.zero) ∧
      computeReceiptsRoot .integers threeReceipts = computeReceiptsRoot .integers lastRepeated ∧
      threeReceipts.length ≠ lastRepeated.length :=
  ⟨injOn_rootsInputs,nonzero_rootsInputs,by decide +kernel,by decide⟩

theorem receipts_root_binds_three :
    completed (threeReceipts.map TransactionReceipt.committed) =
      completed (lastRepeated.map TransactionReceipt.committed) :=
  (receipts_root_binds inMemory_lastRepeated injOn_rootsInputs nonzero_rootsInputs).1.mp (by decide +kernel)

end LastRepeated

end ZbxChain
