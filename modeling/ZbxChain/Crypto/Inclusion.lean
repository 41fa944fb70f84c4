import ZbxChain.Crypto.MerkleTree
import ZbxChain.Foundation.PerfectTree

/-! # What the root of a Merkle tree binds

With the last node of an odd layer as its own sibling the tree is the perfect tree over the
places below a power of two, at which the leaves stand and, behind them, leaves again. A
proof is checked against the perfect tree, and nothing compares its index with the number of
the leaves.
-/
namespace ZbxChain.MerkleTree
open PerfectTree

/-- What `hash_leaf` hashes. -/
def leafInput (data : List UInt8) : List UInt8 := 0 :: data

def hashLeaf (P : Platform) (data : List UInt8) : H256 := P.keccak256 (leafInput data)

/-- What the loop of `verify` hashes. -/
def climbInputs (P : Platform) : H256 → ℕ → List H256 → List (List UInt8)
  | _, _, [] => []
  | current, index, sibling :: rest =>
    let input := if index % 2 = 0 then nodeInput current sibling else nodeInput sibling current
    input :: climbInputs P (P.keccak256 input) (index / 2) rest

def MerkleProof.inputs (P : Platform) (proof : MerkleProof) (leafHash : H256) : List (List UInt8) :=
  climbInputs P leafHash proof.leafIndex proof.siblings

/-- The number of layers above `n` leaves. -/
abbrev height (n : ℕ) : ℕ := Nat.clog 2 n

def leafAt (hashes : List H256) (place : ℕ) : H256 :=
  hashes.getD (standing (height hashes.length) hashes.length place) H256.zero

variable {P : Platform} {hashes layer : List H256} {fuel : ℕ}

theorem nodeInput_inj {l r l' r' : H256} (h : nodeInput l r = nodeInput l' r') : l = l' ∧ r = r' := by
  have htail := (List.cons.inj h).2
  obtain ⟨hl,hr⟩ := List.append_inj htail (by simp)
  exact ⟨by simpa using congrArg H256.fromSlice hl,by simpa using congrArg H256.fromSlice hr⟩

theorem height_succ {n : ℕ} (hn : 2 ≤ n) : height n = height ((n + 1) / 2) + 1 :=
  Nat.clog_of_two_le (by decide) hn

theorem leafAt_parentLayer (hlong : 2 ≤ layer.length) (place : ℕ) :
    leafAt (parentLayer P layer) place =
      combineHashes P (leafAt layer (2 * place)) (leafAt layer (2 * place + 1)) := by
  obtain ⟨parent,hparent⟩ : ∃ parent, standing (height ((layer.length + 1) / 2)) ((layer.length + 1) / 2)
      place = parent := ⟨_,rfl⟩
  have hlt : 2 * parent < layer.length := by
    have hstands := standing_lt (k := height ((layer.length + 1) / 2))
      (show 0 < (layer.length + 1) / 2 by omega) place
    omega
  have heven : 2 * place % 2 = 0 := by omega
  have hodd : (2 * place + 1) % 2 = 1 := by omega
  have hhalf : 2 * place / 2 = place := by omega
  have hhalf' : (2 * place + 1) / 2 = place := by omega
  simpa [leafAt, height_succ hlong, standing, hparent, hhalf, hhalf', heven, hodd, hlt] using
    getD_parentLayer (P := P) hlt

theorem climbHashes_eq (current : H256) (index : ℕ) (siblings : List H256) :
    climbHashes P current index siblings = climb (combineHashes P) current index siblings := by
  induction siblings generalizing current index with
  | nil => rfl
  | cons sibling siblings ih => rw [climbHashes, climb, ih]

theorem getLast?_layersFrom (hne : layer ≠ []) (hfuel : layer.length ≤ fuel + 1) :
    (layersFrom P fuel layer).getLast? =
      some [fold (combineHashes P) (height layer.length) (leafAt layer)] := by
  induction fuel generalizing layer with
  | zero =>
    obtain ⟨l,rfl⟩ := List.length_eq_one_iff.mp
      (show layer.length = 1 by have := List.length_pos_iff.mpr hne; omega)
    simp [layersFrom, fold, leafAt, height, standing]
  | succ fuel ih =>
    rcases layer with _ | ⟨l,_ | ⟨r,rest⟩⟩
    · exact absurd rfl hne
    · simp [layersFrom, fold, leafAt, height, standing]
    · obtain ⟨layer,hlayer⟩ : ∃ layer, l :: r :: rest = layer := ⟨_,rfl⟩
      have hlong : 2 ≤ layer.length := by simp [← hlayer]
      rw [hlayer] at hfuel
      have hne' : parentLayer P layer ≠ [] := by
        rw [← List.length_pos_iff, length_parentLayer]
        omega
      have hnext := ih hne' (by simp; omega)
      rw [layersFrom, hlayer, List.getLast?_cons_of_ne_nil layersFrom_ne_nil, hnext, length_parentLayer,
        height_succ hlong, fold_parents]
      simp only [← leafAt_parentLayer (P := P) hlong]

theorem root_eq_fold (hne : hashes ≠ []) : (buildFromHashes P hashes).root =
    fold (combineHashes P) (height hashes.length) (leafAt hashes) := by
  rw [root, buildFromHashes, getLast?_layersFrom hne (Nat.le_succ _)]
  rfl

theorem mem_layerInputs {parent : ℕ} (h : 2 * parent < layer.length) :
    nodeInput (layer.getD (2 * parent) H256.zero)
      (layer.getD (if 2 * parent + 1 < layer.length then 2 * parent + 1 else 2 * parent) H256.zero) ∈
        layerInputs layer := by
  induction layer using layerInputs.induct generalizing parent with
  | case1 l r rest ih =>
    cases parent with
    | zero => simp [layerInputs]
    | succ parent =>
      have hrest : 2 * parent < rest.length := by
        simp at h
        omega
      have hnext := List.mem_cons_of_mem (nodeInput l r) (ih hrest)
      by_cases hlong : 2 * parent + 1 < rest.length
      · have hlong' : 2 * (parent + 1) + 1 < (l :: r :: rest).length := by
          simp
          omega
        rw [if_pos hlong] at hnext
        rw [if_pos hlong']
        simpa only [layerInputs, Nat.mul_succ, List.getD_cons_succ] using hnext
      · have hlong' : ¬ 2 * (parent + 1) + 1 < (l :: r :: rest).length := by
          simp
          omega
        rw [if_neg hlong] at hnext
        rw [if_neg hlong']
        simpa only [layerInputs, Nat.mul_succ, List.getD_cons_succ] using hnext
  | case2 l =>
    have hzero : parent = 0 := by
      simp at h
      omega
    simp [layerInputs, hzero]
  | case3 => simp at h

/-- What is hashed for the perfect tree is hashed when the tree is built. -/
theorem hashed_of_pairs {p : H256 × H256} (hne : layer ≠ []) (hfuel : layer.length ≤ fuel + 1)
    (hp : p ∈ pairs (combineHashes P) (height layer.length) (leafAt layer)) :
    nodeInput p.1 p.2 ∈ ((layersFrom P fuel layer).dropLast.map layerInputs).flatten := by
  induction fuel generalizing layer with
  | zero =>
    obtain ⟨l,rfl⟩ := List.length_eq_one_iff.mp
      (show layer.length = 1 by have := List.length_pos_iff.mpr hne; omega)
    simp [height, pairs] at hp
  | succ fuel ih =>
    rcases layer with _ | ⟨l,_ | ⟨r,rest⟩⟩
    · exact absurd rfl hne
    · simp [height, pairs] at hp
    · obtain ⟨layer,hlayer⟩ : ∃ layer, l :: r :: rest = layer := ⟨_,rfl⟩
      have hlong : 2 ≤ layer.length := by simp [← hlayer]
      rw [hlayer] at hfuel hp
      have hne' : parentLayer P layer ≠ [] := by
        rw [← List.length_pos_iff, length_parentLayer]
        omega
      rw [layersFrom, hlayer, List.dropLast_cons_of_ne_nil layersFrom_ne_nil, List.map_cons,
        List.flatten_cons]
      rw [height_succ hlong, mem_pairs_parents] at hp
      rcases hp with ⟨place,-,rfl⟩ | hp
      · obtain ⟨parent,hparent⟩ : ∃ parent, standing (height ((layer.length + 1) / 2))
            ((layer.length + 1) / 2) place = parent := ⟨_,rfl⟩
        have hlt : 2 * parent < layer.length := by
          have hstands := standing_lt (k := height ((layer.length + 1) / 2))
            (show 0 < (layer.length + 1) / 2 by omega) place
          omega
        have heven : 2 * place % 2 = 0 := by omega
        have hodd : (2 * place + 1) % 2 = 1 := by omega
        have hhalf : 2 * place / 2 = place := by omega
        have hhalf' : (2 * place + 1) / 2 = place := by omega
        refine List.mem_append_left _ ?_
        simpa [leafAt, height_succ hlong, standing, hparent, hhalf, hhalf', heven, hodd, hlt] using
          mem_layerInputs hlt
      · refine List.mem_append_right _ (ih hne' (by simp; omega) ?_)
        simpa only [length_parentLayer, ← leafAt_parentLayer (P := P) hlong] using hp

theorem hashed_of_climbPairs {p : H256 × H256} {current : H256} {index : ℕ} {siblings : List H256}
    (hp : p ∈ climbPairs (combineHashes P) current index siblings) :
    nodeInput p.1 p.2 ∈ climbInputs P current index siblings := by
  induction siblings generalizing current index with
  | nil => cases hp
  | cons sibling siblings ih =>
    rw [climbInputs]
    rcases hp with rfl | hp
    · refine List.mem_cons.mpr (Or.inl ?_)
      split <;> rfl
    · refine List.mem_cons_of_mem _ (ih ?_)
      by_cases heven : index % 2 = 0
      · simpa [heven, combineHashes] using hp
      · simpa [heven, combineHashes] using hp

section Hashed
variable {E : Set (List UInt8)}

theorem binding_of_injOn (hkeccak : Set.InjOn P.keccak256 E) :
    Binding (combineHashes P) {p | nodeInput p.1 p.2 ∈ E} := by
  rintro ⟨l,r⟩ hp ⟨l',r'⟩ hp' h
  obtain ⟨rfl,rfl⟩ := nodeInput_inj (hkeccak hp hp' h)
  rfl

theorem apart_of_injOn (hkeccak : Set.InjOn P.keccak256 E) {input : List UInt8} (hinput : input ∈ E)
    (hnode : ∀ l r, nodeInput l r ≠ input) :
    Apart (combineHashes P) {p | nodeInput p.1 p.2 ∈ E} (P.keccak256 input) :=
  fun p hp h => hnode p.1 p.2 (hkeccak hp hinput h)

end Hashed

section Statement
variable (P)

/-- The proofs of all leaves are accepted, and the given one, if it is accepted for a hash, names
a leaf with this hash. -/
def Exact (hashes : List H256) (proof : MerkleProof) (leafHash : H256) : Prop :=
  (∀ i < hashes.length, ∃ honest, (buildFromHashes P hashes).proof i = some honest ∧
    honest.verify P (buildFromHashes P hashes).root (hashes.getD i H256.zero) = true) ∧
  (proof.verify P (buildFromHashes P hashes).root leafHash = true →
    proof.leafIndex < hashes.length ∧ hashes[proof.leafIndex]? = some leafHash)

/-- The last siblings of a proof are those of a place of the perfect tree, and the siblings below
them lead from the hash to the leaf that stands there. -/
def OpensPlace (hashes : List H256) (proof : MerkleProof) (leafHash : H256) (below : List H256) : Prop :=
  Opens (combineHashes P) (height hashes.length) (leafAt hashes) leafHash proof.leafIndex proof.siblings below

def checkedInputs (hashes : List H256) (proof : MerkleProof) (data : List UInt8) : Set (List UInt8) :=
  {input | input = leafInput data ∨ input ∈ (buildFromHashes P hashes).inputs ∨
    input ∈ proof.inputs P (hashLeaf P data)}

end Statement

theorem leafAt_of_lt {place : ℕ} (hplace : place < hashes.length) :
    leafAt hashes place = hashes.getD place H256.zero := by
  rw [leafAt, standing_of_lt hplace (Nat.le_pow_clog (by decide) _)]

/-- Inclusion is exact for a proof if and only if, where it opens a place of the perfect tree, its
index is one of a leaf and it has no siblings below the tree, but for a leaf of the very hash. -/
theorem exact_iff (hne : hashes ≠ []) (proof : MerkleProof) (data : List UInt8)
    (hkeccak : Set.InjOn P.keccak256 (checkedInputs P hashes proof data)) :
    Exact P hashes proof (hashLeaf P data) ↔
      ∀ below, OpensPlace P hashes proof (hashLeaf P data) below →
        proof.leafIndex < hashes.length ∧
          (below = [] ∨ hashes[proof.leafIndex]? = some (hashLeaf P data)) := by
  have hverify : proof.verify P (buildFromHashes P hashes).root (hashLeaf P data) = true ↔
      ∃ below, OpensPlace P hashes proof (hashLeaf P data) below := by
    rw [MerkleProof.verify, decide_eq_true_iff, climbHashes_eq, root_eq_fold hne]
    refine climb_eq_fold_iff (binding_of_injOn hkeccak) ?_ ?_ (apart_of_injOn hkeccak (Or.inl rfl) ?_)
    · exact fun p hp => Or.inr (Or.inl (hashed_of_pairs hne (Nat.le_succ _) hp))
    · exact fun p hp => Or.inr (Or.inr (hashed_of_climbPairs hp))
    · intro l r h
      simp [nodeInput, leafInput] at h
  have hhonest : ∀ i < hashes.length, ∃ honest, (buildFromHashes P hashes).proof i = some honest ∧
      honest.verify P (buildFromHashes P hashes).root (hashes.getD i H256.zero) = true := by
    intro i hi
    have hproof : (buildFromHashes P hashes).proof i =
        some ⟨i,hashes.length,siblingsFrom (buildFromHashes P hashes).layers.dropLast i⟩ := by
      simp [MerkleTree.proof, hi]
    exact ⟨_,hproof,verify_proof hproof⟩
  unfold Exact
  rw [hverify]
  constructor
  · rintro ⟨-,hsound⟩ below hopens
    obtain ⟨hindex,hhash⟩ := hsound ⟨below,hopens⟩
    exact ⟨hindex,Or.inr hhash⟩
  · intro hplaces
    refine ⟨hhonest,?_⟩
    rintro ⟨below,hopens⟩
    obtain ⟨hindex,hnil | hhash⟩ := hplaces below hopens
    · have hleaf := hopens.2
      have hlt : proof.leafIndex < 2 ^ height hashes.length :=
        lt_of_lt_of_le hindex (Nat.le_pow_clog (by decide) _)
      have hone : proof.leafIndex / 2 ^ below.length % 2 ^ height hashes.length = proof.leafIndex := by
        rw [hnil, List.length_nil, pow_zero, Nat.div_one, Nat.mod_eq_of_lt hlt]
      rw [hone, hnil, climb, leafAt_of_lt hindex] at hleaf
      refine ⟨hindex,?_⟩
      simp [hleaf, hindex]
    · exact ⟨hindex,hhash⟩

section ThreeLeaves

def threeLeaves : List H256 := [[1],[2],[3]].map (hashLeaf .integers)

def secondProof : MerkleProof :=
  ⟨1,3,siblingsFrom (buildFromHashes .integers threeLeaves).layers.dropLast 1⟩

def fourthProof : MerkleProof :=
  ⟨3,3,siblingsFrom (buildFromHashes .integers threeLeaves).layers.dropLast 2⟩

theorem injOn_checkedInputs (proof : MerkleProof) (data : List UInt8)
    (h : ∀ input ∈ leafInput data :: ((buildFromHashes .integers threeLeaves).inputs ++
        proof.inputs .integers (hashLeaf .integers data)),
      ∀ input' ∈ leafInput data :: ((buildFromHashes .integers threeLeaves).inputs ++
        proof.inputs .integers (hashLeaf .integers data)),
      Platform.integers.keccak256 input = Platform.integers.keccak256 input' → input = input') :
    Set.InjOn Platform.integers.keccak256 (checkedInputs .integers threeLeaves proof data) := by
  intro input hinput input' hinput'
  refine h input ?_ input' ?_
  · simpa [checkedInputs] using hinput
  · simpa [checkedInputs] using hinput'

theorem exact_second_of_three :
    Exact .integers threeLeaves secondProof (hashLeaf .integers [2]) ↔
      ∀ below, OpensPlace .integers threeLeaves secondProof (hashLeaf .integers [2]) below →
        1 < 3 ∧ (below = [] ∨ threeLeaves[1]? = some (hashLeaf .integers [2])) :=
  exact_iff (by decide) secondProof [2] (injOn_checkedInputs secondProof [2] (by decide +kernel))

/-- The third of three leaves is accepted as a fourth one. -/
theorem fourth_of_three :
    Set.InjOn Platform.integers.keccak256 (checkedInputs .integers threeLeaves fourthProof [3]) ∧
      fourthProof.leafCount = threeLeaves.length ∧
      ¬ Exact .integers threeLeaves fourthProof (hashLeaf .integers [3]) := by
  refine ⟨injOn_checkedInputs fourthProof [3] (by decide +kernel),rfl,?_⟩
  rintro ⟨-,hsound⟩
  exact absurd (hsound (by decide +kernel)).1 (by decide)

end ThreeLeaves

end ZbxChain.MerkleTree
