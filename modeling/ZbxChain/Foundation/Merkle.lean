import Mathlib.Algebra.Ring.Nat
import Mathlib.Data.List.Basic

/-! # Binary Merkle trees in layers

A layer is a list of nodes. The next layer has the parents of neighbours; a last node without
a neighbour is paired with padding. A path leads from a node of a layer up to the root, and at
every step has the sibling and the side that the node is on.
-/
namespace ZbxChain.Merkle

variable {α : Type*} (pair : α → α → α) (pad : α)

structure PathStep (α : Type*) where
  sibling : α
  isLeft : Bool
  deriving DecidableEq

def nextLayer : List α → List α
  | l :: r :: rest => pair l r :: nextLayer rest
  | [l] => [pair l pad]
  | [] => []

/-- The top of the layers; a layer at least halves, so its length is fuel enough. -/
def top : ℕ → List α → α
  | fuel + 1, l :: r :: rest => top fuel (nextLayer pair pad (l :: r :: rest))
  | _, l :: _ => l
  | _, [] => pad

def path : ℕ → List α → ℕ → List (PathStep α)
  | fuel + 1, l :: r :: rest, index =>
    ⟨(l :: r :: rest).getD (if index % 2 = 0 then index + 1 else index - 1) pad,index % 2 == 0⟩ ::
      path fuel (nextLayer pair pad (l :: r :: rest)) (index / 2)
  | _, _, _ => []

def climbStep (node : α) (step : PathStep α) : α :=
  if step.isLeft then pair node step.sibling else pair step.sibling node

def climb (leaf : α) (steps : List (PathStep α)) : α := steps.foldl (climbStep pair) leaf

def position : List (PathStep α) → ℕ
  | [] => 0
  | step :: rest => 2 * position rest + if step.isLeft then 0 else 1

variable {pair pad} {layer : List α} {fuel index : ℕ}

@[simp] theorem length_nextLayer : (nextLayer pair pad layer).length = (layer.length + 1) / 2 := by
  induction layer using nextLayer.induct with
  | case1 l r rest ih =>
    simp [nextLayer, ih]
    omega
  | case2 l => simp [nextLayer]
  | case3 => simp [nextLayer]

theorem getD_nextLayer (h : 2 * index < layer.length) :
    (nextLayer pair pad layer).getD index pad =
      pair (layer.getD (2 * index) pad) (layer.getD (2 * index + 1) pad) := by
  induction layer using nextLayer.induct generalizing index with
  | case1 l r rest ih =>
    cases index with
    | zero => simp [nextLayer]
    | succ index =>
      have hrest : 2 * index < rest.length := by
        simp at h
        omega
      simpa [nextLayer, Nat.mul_succ] using ih hrest
  | case2 l =>
    have hzero : index = 0 := by
      simp at h
      omega
    simp [nextLayer, hzero]
  | case3 => simp at h

/-- The path of a leaf climbs to the top. -/
theorem climb_path (hindex : index < layer.length) (hfuel : layer.length ≤ fuel + 1) :
    climb pair (layer.getD index pad) (path pair pad fuel layer index) = top pair pad fuel layer := by
  induction fuel generalizing layer index with
  | zero =>
    obtain ⟨l,rfl⟩ := List.length_eq_one_iff.mp (show layer.length = 1 by omega)
    have hzero : index = 0 := by
      simp at hindex
      omega
    simp [path, climb, top, hzero]
  | succ fuel ih =>
    rcases layer with _ | ⟨l,_ | ⟨r,rest⟩⟩
    · simp at hindex
    · have hzero : index = 0 := by
        simp at hindex
        omega
      simp [path, climb, top, hzero]
    · obtain ⟨layer,hlayer⟩ : ∃ layer, l :: r :: rest = layer := ⟨_,rfl⟩
      have hlong : 2 ≤ layer.length := by simp [← hlayer]
      rw [hlayer] at hindex hfuel
      have hhalf : index / 2 < (nextLayer pair pad layer).length := by
        simp
        omega
      have hfuel' : (nextLayer pair pad layer).length ≤ fuel + 1 := by
        simp
        omega
      have hnext := ih hhalf hfuel'
      rw [getD_nextLayer (by omega)] at hnext
      rw [path, top, hlayer, climb, List.foldl_cons, ← hnext, climb]
      refine congrArg (fun node => List.foldl (climbStep pair) node _) ?_
      by_cases heven : index % 2 = 0
      · have hindex' : 2 * (index / 2) = index := by omega
        simp [climbStep, heven, hindex']
      · have hindex' : 2 * (index / 2) = index - 1 := by omega
        have hodd : index - 1 + 1 = index := by omega
        simp [climbStep, heven, hindex', hodd]

theorem position_path (hindex : index < layer.length) (hfuel : layer.length ≤ fuel + 1) :
    position (path pair pad fuel layer index) = index := by
  induction fuel generalizing layer index with
  | zero =>
    have hzero : index = 0 := by omega
    simp [path, position, hzero]
  | succ fuel ih =>
    rcases layer with _ | ⟨l,_ | ⟨r,rest⟩⟩
    · simp at hindex
    · have hzero : index = 0 := by
        simp at hindex
        omega
      simp [path, position, hzero]
    · have hnext : position (path pair pad fuel (nextLayer pair pad (l :: r :: rest)) (index / 2)) =
          index / 2 := by
        simp at hindex hfuel
        refine ih ?_ ?_
        · simp
          omega
        · simp
          omega
      rw [path, position, hnext]
      by_cases heven : index % 2 = 0
      · simp [heven]
        omega
      · simp [heven]
        omega

theorem length_path_le {k : ℕ} (h : layer.length ≤ 2 ^ k) :
    (path pair pad fuel layer index).length ≤ k := by
  induction k generalizing fuel layer index with
  | zero =>
    rcases layer with _ | ⟨l,_ | ⟨r,rest⟩⟩
    · simp [path]
    · simp [path]
    · simp at h
  | succ k ih =>
    rcases layer with _ | ⟨l,_ | ⟨r,rest⟩⟩
    · simp [path]
    · simp [path]
    · cases fuel with
      | zero => simp [path]
      | succ fuel =>
        simp only [path, List.length_cons]
        refine Nat.succ_le_succ (ih ?_)
        simp only [List.length_cons] at h
        simp
        omega

end ZbxChain.Merkle
