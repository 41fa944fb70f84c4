import ZbxChain.Trie.Commitment

/-! # The nodes that a trie builds, read back from their encodings -/
namespace ZbxChain

mutual
/-- A leaf has a value; a branch has one or none; the children are nothing, a hash, or a node of
less than 32 bytes. -/
def TrieNode.Built : TrieNode → Prop
  | .empty => False
  | .leaf _ value => value ≠ []
  | .extension _ child => child.Built
  | .branch children value => (∀ i, (children i).Built) ∧ value ≠ some []

def NodeRef.Built : NodeRef → Prop
  | .hash _ => True
  | .inline node => node.encode.length < 32 ∧ node.Built
  | .empty => True
end

theorem TrieNode.Built.ne_empty {node : TrieNode} (h : node.Built) : node ≠ .empty := by
  rintro rfl
  exact h

mutual
theorem TrieNode.Built.proper {node : TrieNode} (h : node.Built) : node.Proper := by
  cases node with
  | empty => trivial
  | leaf path value => trivial
  | extension path child => exact NodeRef.Built.proper h
  | branch children value => exact ⟨fun i => NodeRef.Built.proper (h.1 i),h.2⟩

theorem NodeRef.Built.proper {ref : NodeRef} (h : ref.Built) : ref.Proper := by
  cases ref with
  | hash h => trivial
  | inline node => exact ⟨h.2.ne_empty,TrieNode.Built.proper h.2⟩
  | empty => trivial
end

/-- A node that a trie builds is what its encoding is decoded to: the kind, the path, the children
at every depth and the value. -/
theorem decode_encode_built {node : TrieNode} (hbuilt : node ≠ .empty → node.Built)
    (hlt : node.encode.length < 2 ^ 63) : TrieNode.decode node.encode = .ok node := by
  refine TrieNode.decode_encode_node ?_ hlt
  by_cases hne : node = .empty
  · rw [hne]
    trivial
  · exact (hbuilt hne).proper

def demoLeaf : TrieNode := .leaf (Nibbles.fromBytes [0x45]) [7]

def demoBranch : TrieNode := .branch (fun i => if i.val = 6 then .inline demoLeaf else .empty) (some [9])

theorem encode_demoLeaf : demoLeaf.encode = [0xc4,0x82,0x20,0x45,0x07] := by
  have hne : demoLeaf ≠ .empty := nofun
  rw [TrieNode.encode_eq hne]
  decide

theorem length_demoBranch : demoBranch.encode.length = 22 := by
  have hne : demoBranch ≠ .empty := nofun
  have hslots : ∀ i : Fin 16, (if i.val = 6 then NodeRef.inline demoLeaf else .empty).bytes =
      if i.val = 6 then [0xc4,0x82,0x20,0x45,0x07] else [0x80] := by
    intro i
    split
    · exact encode_demoLeaf
    · rfl
  rw [TrieNode.encode_eq hne, demoBranch, TrieNode.items]
  simp only [hslots]
  decide

theorem decode_encode_built_extension :
    TrieNode.decode (TrieNode.extension [1,2,3] (.inline demoBranch)).encode =
      .ok (.extension [1,2,3] (.inline demoBranch)) := by
  have hne : TrieNode.extension [1,2,3] (.inline demoBranch) ≠ .empty := nofun
  have hleaf : demoLeaf.Built := List.cons_ne_nil _ _
  have hslots : ∀ i : Fin 16, (if i.val = 6 then NodeRef.inline demoLeaf else .empty).Built := by
    intro i
    split
    · exact ⟨by simp [encode_demoLeaf],hleaf⟩
    · trivial
  refine decode_encode_built (fun _ => ⟨by simp [length_demoBranch],hslots,by simp⟩) ?_
  have hpath : (RlpStream.stringBytes (Nibbles.encodeCompact [1,2,3] false)).length = 3 := by decide
  have hitems : (TrieNode.extension [1,2,3] (.inline demoBranch)).items.flatten.length = 25 := by
    simp [TrieNode.items, NodeRef.bytes, hpath, length_demoBranch]
  rw [TrieNode.encode_eq hne, RlpStream.listBytes, List.length_append, hitems]
  decide

end ZbxChain
