import ZbxChain.Crypto.Platform

/-! # `zbx_crypto::merkle`: the tree over transaction and receipt hashes

The last node of an odd layer is its own sibling. A byte in front keeps the inputs of nodes apart
from those of leaves.
-/
namespace ZbxChain

section Hashing
variable (P : Platform)

/-- What `combine_hashes` hashes. -/
def nodeInput (left right : H256) : List UInt8 := 1 :: (left.asBytes ++ right.asBytes)

def combineHashes (left right : H256) : H256 := P.keccak256 (nodeInput left right)

def parentLayer : List H256 → List H256
  | l :: r :: rest => combineHashes P l r :: parentLayer rest
  | [l] => [combineHashes P l l]
  | [] => []

def layerInputs : List H256 → List (List UInt8)
  | l :: r :: rest => nodeInput l r :: layerInputs rest
  | [l] => [nodeInput l l]
  | [] => []

end Hashing

structure MerkleTree where
  layers : List (List H256)

namespace MerkleTree

structure MerkleProof where
  leafIndex : ℕ
  leafCount : ℕ
  siblings : List H256
  deriving DecidableEq

/-- The loop of `verify`. -/
def climbHashes (P : Platform) : H256 → ℕ → List H256 → H256
  | current, _, [] => current
  | current, index, sibling :: rest =>
    climbHashes P (if index % 2 = 0 then combineHashes P current sibling else combineHashes P sibling current)
      (index / 2) rest

def MerkleProof.verify (P : Platform) (proof : MerkleProof) (root leafHash : H256) : Bool :=
  decide (climbHashes P leafHash proof.leafIndex proof.siblings = root)

/-- The loop of `build_from_hashes`. Layers at least halve, so a layer's length is fuel enough. -/
def layersFrom (P : Platform) : ℕ → List H256 → List (List H256)
  | fuel + 1, l :: r :: rest => (l :: r :: rest) :: layersFrom P fuel (parentLayer P (l :: r :: rest))
  | _, layer => [layer]

def buildFromHashes (P : Platform) (hashes : List H256) : MerkleTree := ⟨layersFrom P hashes.length hashes⟩

def root (tree : MerkleTree) : H256 := (tree.layers.getLast?.bind List.head?).getD H256.zero

def len (tree : MerkleTree) : ℕ := (tree.layers.head?.map List.length).getD 0

/-- The loop of `proof`: one sibling a layer. -/
def siblingsFrom : List (List H256) → ℕ → List H256
  | [], _ => []
  | layer :: rest, idx =>
    let siblingIdx := if idx % 2 = 0 then idx + 1 else idx - 1
    layer.getD (if siblingIdx < layer.length then siblingIdx else idx) H256.zero :: siblingsFrom rest (idx / 2)

def proof (tree : MerkleTree) (leafIndex : ℕ) : Option MerkleProof :=
  if tree.len ≤ leafIndex then none else some ⟨leafIndex,tree.len,siblingsFrom tree.layers.dropLast leafIndex⟩

def inputs (tree : MerkleTree) : List (List UInt8) := (tree.layers.dropLast.map layerInputs).flatten

end MerkleTree

def transactionsRoot (P : Platform) (txHashes : List H256) : H256 :=
  if txHashes.isEmpty then H256.zero else (MerkleTree.buildFromHashes P txHashes).root

section Layers
variable {P : Platform} {layer : List H256} {fuel index : ℕ}

@[simp] theorem length_parentLayer : (parentLayer P layer).length = (layer.length + 1) / 2 := by
  induction layer using parentLayer.induct with
  | case1 l r rest ih =>
    simp [parentLayer, ih]
    omega
  | case2 l => simp [parentLayer]
  | case3 => simp [parentLayer]

theorem parentLayer_eq : parentLayer P layer = (layerInputs layer).map P.keccak256 := by
  induction layer using parentLayer.induct with
  | case1 l r rest ih => simp [parentLayer, layerInputs, combineHashes, ih]
  | case2 l => simp [parentLayer, layerInputs, combineHashes]
  | case3 => rfl

theorem getD_parentLayer (h : 2 * index < layer.length) :
    (parentLayer P layer).getD index H256.zero =
      combineHashes P (layer.getD (2 * index) H256.zero)
        (layer.getD (if 2 * index + 1 < layer.length then 2 * index + 1 else 2 * index) H256.zero) := by
  induction layer using parentLayer.induct generalizing index with
  | case1 l r rest ih =>
    cases index with
    | zero => simp [parentLayer]
    | succ index =>
      have hrest : 2 * index < rest.length := by
        simp at h
        omega
      have hnext := ih hrest
      by_cases hlong : 2 * index + 1 < rest.length
      · have hlong' : 2 * (index + 1) + 1 < (l :: r :: rest).length := by
          simp
          omega
        rw [if_pos hlong] at hnext
        rw [if_pos hlong']
        simpa only [parentLayer, Nat.mul_succ, List.getD_cons_succ] using hnext
      · have hlong' : ¬ 2 * (index + 1) + 1 < (l :: r :: rest).length := by
          simp
          omega
        rw [if_neg hlong] at hnext
        rw [if_neg hlong']
        simpa only [parentLayer, Nat.mul_succ, List.getD_cons_succ] using hnext
  | case2 l =>
    have hzero : index = 0 := by
      simp at h
      omega
    simp [parentLayer, hzero]
  | case3 => simp at h

theorem length_layerInputs {input : List UInt8} (h : input ∈ layerInputs layer) : input.length = 65 := by
  induction layer using layerInputs.induct with
  | case1 l r rest ih =>
    rcases List.mem_cons.mp h with rfl | h
    · simp [nodeInput]
    · exact ih h
  | case2 l =>
    rw [layerInputs, List.mem_singleton] at h
    simp [h, nodeInput]
  | case3 => simp [layerInputs] at h

end Layers

namespace MerkleTree
variable {P : Platform} {layer : List H256} {fuel index : ℕ}

theorem layersFrom_ne_nil : layersFrom P fuel layer ≠ [] := by
  unfold layersFrom
  split <;> simp

theorem head?_layersFrom : (layersFrom P fuel layer).head? = some layer := by
  unfold layersFrom
  split <;> simp

@[simp] theorem len_buildFromHashes (hashes : List H256) : (buildFromHashes P hashes).len = hashes.length := by
  simp [len, buildFromHashes, head?_layersFrom]

/-- The loop ends at one node, and a node with its siblings leads up to it. -/
theorem climb_siblings (hindex : index < layer.length) (hfuel : layer.length ≤ fuel + 1) :
    (layersFrom P fuel layer).getLast? =
      some [climbHashes P (layer.getD index H256.zero) index (siblingsFrom (layersFrom P fuel layer).dropLast index)] := by
  induction fuel generalizing layer index with
  | zero =>
    obtain ⟨l,rfl⟩ := List.length_eq_one_iff.mp (show layer.length = 1 by omega)
    have hzero : index = 0 := by simpa using hindex
    simp [layersFrom, siblingsFrom, climbHashes, hzero]
  | succ fuel ih =>
    rcases layer with _ | ⟨l,_ | ⟨r,rest⟩⟩
    · simp at hindex
    · have hzero : index = 0 := by simpa using hindex
      simp [layersFrom, siblingsFrom, climbHashes, hzero]
    · obtain ⟨layer,hlayer⟩ : ∃ layer, l :: r :: rest = layer := ⟨_,rfl⟩
      have hlong : 2 ≤ layer.length := by simp [← hlayer]
      rw [hlayer] at hindex hfuel
      have hhalf : index / 2 < (parentLayer P layer).length := by
        simp
        omega
      have hfuel' : (parentLayer P layer).length ≤ fuel + 1 := by
        simp
        omega
      have hnext := ih hhalf hfuel'
      rw [getD_parentLayer (by omega)] at hnext
      rw [layersFrom, hlayer, List.getLast?_cons_of_ne_nil layersFrom_ne_nil,
        List.dropLast_cons_of_ne_nil layersFrom_ne_nil, siblingsFrom, climbHashes, hnext]
      by_cases heven : index % 2 = 0
      · have hindex' : 2 * (index / 2) = index := by omega
        simp [heven, hindex']
      · have hindex' : 2 * (index / 2) = index - 1 := by omega
        have hodd : index - 1 + 1 = index := by omega
        have hshort : index - 1 < layer.length := by omega
        simp [heven, hindex', hodd, hindex, hshort]

theorem root_buildFromHashes {hashes : List H256} (hindex : index < hashes.length) :
    (buildFromHashes P hashes).root =
      climbHashes P (hashes.getD index H256.zero) index
        (siblingsFrom (buildFromHashes P hashes).layers.dropLast index) := by
  rw [root, buildFromHashes, climb_siblings hindex (Nat.le_succ _)]
  rfl

theorem verify_proof {hashes : List H256} {merkleProof : MerkleProof}
    (hproof : (buildFromHashes P hashes).proof index = some merkleProof) :
    merkleProof.verify P (buildFromHashes P hashes).root (hashes.getD index H256.zero) = true := by
  rw [proof, len_buildFromHashes] at hproof
  split at hproof
  · cases hproof
  · rename_i hindex
    have hin : index < hashes.length := by omega
    cases hproof
    rw [MerkleProof.verify, root_buildFromHashes hin, decide_eq_true rfl]

@[simp] theorem length_siblingsFrom (layers : List (List H256)) (idx : ℕ) :
    (siblingsFrom layers idx).length = layers.length := by
  induction layers generalizing idx with
  | nil => rfl
  | cons layer layers ih => simp [siblingsFrom, ih]

theorem exists_rootInput (hlong : 2 ≤ layer.length) (hfuel : layer.length ≤ fuel + 1) :
    ∃ input ∈ ((layersFrom P fuel layer).dropLast.map layerInputs).flatten,
      input.length = 65 ∧ (layersFrom P fuel layer).getLast? = some [P.keccak256 input] := by
  induction fuel generalizing layer with
  | zero => omega
  | succ fuel ih =>
    rcases layer with _ | ⟨l,_ | ⟨r,rest⟩⟩
    · simp at hlong
    · simp at hlong
    · obtain ⟨layer,hlayer⟩ : ∃ layer, l :: r :: rest = layer := ⟨_,rfl⟩
      have hlong' : 2 ≤ layer.length := by simp [← hlayer]
      rw [hlayer] at hfuel
      rw [layersFrom, hlayer, List.getLast?_cons_of_ne_nil layersFrom_ne_nil,
        List.dropLast_cons_of_ne_nil layersFrom_ne_nil, List.map_cons, List.flatten_cons]
      by_cases hmore : 2 ≤ (parentLayer P layer).length
      · obtain ⟨input,hinput,hlength,hlast⟩ := ih hmore (by simp; omega)
        exact ⟨input,List.mem_append_right _ hinput,hlength,hlast⟩
      · -- two nodes are left, and the root is the parent of both
        have hone : (parentLayer P layer).length = 1 := by
          have hlength : (parentLayer P layer).length = (layer.length + 1) / 2 := length_parentLayer
          omega
        rw [parentLayer_eq, List.length_map] at hone
        obtain ⟨input,hinput⟩ := List.length_eq_one_iff.mp hone
        have hmem : input ∈ layerInputs layer := by simp [hinput]
        refine ⟨input,List.mem_append_left _ hmem,length_layerInputs hmem,?_⟩
        rw [parentLayer_eq, hinput]
        cases fuel <;> rfl

theorem exists_input_root {hashes : List H256} (hlong : 2 ≤ hashes.length) :
    ∃ input ∈ (buildFromHashes P hashes).inputs, input.length = 65 ∧
      (buildFromHashes P hashes).root = P.keccak256 input := by
  obtain ⟨input,hinput,hlength,hlast⟩ := exists_rootInput (P := P) hlong (Nat.le_succ _)
  refine ⟨input,hinput,hlength,?_⟩
  rw [root, buildFromHashes, hlast]
  rfl

theorem two_le_length_layers {hashes : List H256} (hlong : 2 ≤ hashes.length) :
    2 ≤ (buildFromHashes P hashes).layers.length := by
  obtain ⟨l,r,rest,rfl⟩ : ∃ l r rest, hashes = l :: r :: rest := by
    rcases hashes with _ | ⟨l,_ | ⟨r,rest⟩⟩
    · simp at hlong
    · simp at hlong
    · exact ⟨l,r,rest,rfl⟩
  have hpos : 0 < (layersFrom P (rest.length + 1) (parentLayer P (l :: r :: rest))).length :=
    List.length_pos_iff.mpr layersFrom_ne_nil
  simp [buildFromHashes, layersFrom]
  omega

end MerkleTree

end ZbxChain
