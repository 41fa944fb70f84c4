import ZbxChain.Rlp.Frame

/-! # Reading back what the stream wrote

Items are trees of byte strings and lists. Writing a tree to a stream appends its pure
encoding, nested lists included, and the decoder's loops over a list payload find the
encodings of the items one by one.
-/
namespace ZbxChain
open RlpStream

inductive RlpItem where
  | bytes (data : List UInt8)
  | list (items : List RlpItem)

namespace RlpItem

mutual
/-- `append` for a string; `begin_list`, the items, `finalize_unbounded_list` for a list. -/
def writeTo : RlpItem → RlpStream → Option RlpStream
  | .bytes data, s => some (s.append data)
  | .list items, s => do
    let s ← writeAll items (s.beginList items.length)
    s.finalizeUnboundedList

def writeAll : List RlpItem → RlpStream → Option RlpStream
  | [], s => some s
  | item :: items, s => do
    let s ← item.writeTo s
    writeAll items s
end

def encode (item : RlpItem) : Option (List UInt8) := (item.writeTo RlpStream.new).map RlpStream.out

mutual
def rlp : RlpItem → List UInt8
  | .bytes data => stringBytes data
  | .list items => listBytes (rlpAll items)

def rlpAll : List RlpItem → List UInt8
  | [] => []
  | item :: items => item.rlp ++ rlpAll items
end

mutual
def height : RlpItem → ℕ
  | .bytes _ => 1
  | .list items => 1 + heights items

def heights : List RlpItem → ℕ
  | [] => 0
  | item :: items => max item.height (heights items)
end

theorem rlpAll_eq (items : List RlpItem) : rlpAll items = (items.map rlp).flatten := by
  induction items with
  | nil => rfl
  | cons item items ih => rw [rlpAll, ih, List.map_cons, List.flatten_cons]

theorem height_le_heights {item : RlpItem} {items : List RlpItem} (h : item ∈ items) :
    item.height ≤ heights items := by
  induction items with
  | nil => cases h
  | cons head items ih =>
    rw [heights]
    rcases List.mem_cons.mp h with rfl | hmem
    · exact le_max_left _ _
    · exact le_max_of_le_right (ih hmem)

mutual
theorem writeTo_eq (item : RlpItem) (buf : List UInt8) (stack : List ℕ) :
    item.writeTo ⟨buf,stack⟩ = some ⟨buf ++ item.rlp,stack⟩ := by
  cases item with
  | bytes data => rw [writeTo, append_eq, rlp]
  | list items =>
    have hitems := writeAll_eq items (buf ++ List.replicate 9 0) (buf.length :: stack)
    rw [writeTo, beginList, hitems, rlp]
    exact finalize_eq buf (rlpAll items) stack

theorem writeAll_eq (items : List RlpItem) (buf : List UInt8) (stack : List ℕ) :
    writeAll items ⟨buf,stack⟩ = some ⟨buf ++ rlpAll items,stack⟩ := by
  cases items with
  | nil => rw [writeAll, rlpAll, List.append_nil]
  | cons item items =>
    have hitem := writeTo_eq item buf stack
    have hitems := writeAll_eq items (buf ++ item.rlp) stack
    rw [writeAll, hitem, rlpAll, ← List.append_assoc]
    exact hitems
end

theorem encode_eq (item : RlpItem) : item.encode = some item.rlp := by
  rw [encode, RlpStream.new, writeTo_eq]
  rfl

end RlpItem

namespace Rlp
open RlpItem

/-- `is_list`, `item_count`, `at` and `as_bytes`, recursively; the fuel bounds the depth. -/
def readItem : ℕ → Rlp → Option RlpItem
  | 0, _ => none
  | fuel + 1, rlp =>
    if rlp.isList then do
      let count ← rlp.itemCount.toOption
      let items ← (List.range count).mapM (fun i => do
        let item ← (rlp.itemAt i).toOption
        readItem fuel item)
      some (.list items)
    else rlp.asBytes.toOption.map .bytes

def remaining (rlp : Rlp) : Except RlpError (List UInt8) :=
  if rlp.isList then rlp.listPayload.map Prod.snd else rlp.splitPayload.map Prod.snd

section Loops
variable {items : List (List UInt8)}

theorem Framed.ne_nil {item : List UInt8} (h : Framed item) : item ≠ [] := by
  rintro rfl
  have := h [] [] (by simp)
  cases this

theorem length_le_flatten (hframed : ∀ item ∈ items, Framed item) :
    items.length ≤ items.flatten.length := by
  induction items with
  | nil => simp
  | cons item items ih =>
    have hpos := List.length_pos_iff.mpr (hframed item List.mem_cons_self).ne_nil
    have hrest := ih (fun i hi => hframed i (List.mem_cons_of_mem _ hi))
    rw [List.flatten_cons, List.length_append, List.length_cons]
    omega

theorem itemLength_flatten {front item : List UInt8}
    (hframed : ∀ i ∈ item :: items, Framed i)
    (hlt : (front ++ (item :: items).flatten).length < 2 ^ 63) :
    front.length < (front ++ (item :: items).flatten).length ∧
      itemLength (front ++ (item :: items).flatten) front.length = .ok item.length := by
  have hitem := hframed item List.mem_cons_self
  have hpos := List.length_pos_iff.mpr hitem.ne_nil
  have hdata : front ++ (item :: items).flatten = front ++ item ++ items.flatten := by simp
  rw [hdata] at hlt ⊢
  refine ⟨?_,hitem front items.flatten hlt⟩
  simp only [List.length_append]
  omega

theorem countLoop_flatten (hframed : ∀ item ∈ items, Framed item) (front : List UInt8)
    {fuel : ℕ} (count : ℕ) (hfuel : items.length < fuel) (hlt : (front ++ items.flatten).length < 2 ^ 63) :
    countLoop (front ++ items.flatten) fuel front.length count = .ok (count + items.length) := by
  induction items generalizing front fuel count with
  | nil =>
    obtain ⟨fuel,rfl⟩ := Nat.exists_eq_add_one_of_ne_zero (Nat.ne_of_gt hfuel)
    have hstop : ¬ front.length < (front ++ ([] : List (List UInt8)).flatten).length := by simp
    rw [countLoop, if_neg hstop]
    rfl
  | cons item items ih =>
    obtain ⟨fuel,rfl⟩ := Nat.exists_eq_add_one_of_ne_zero (Nat.ne_of_gt (Nat.zero_lt_of_lt hfuel))
    obtain ⟨hinside,hmeasure⟩ := itemLength_flatten hframed hlt
    have hdata : front ++ (item :: items).flatten = (front ++ item) ++ items.flatten := by simp
    have hrest := ih (fun i hi => hframed i (List.mem_cons_of_mem _ hi)) (front ++ item)
      (count + 1) (Nat.lt_of_succ_lt_succ hfuel) (hdata ▸ hlt)
    rw [List.length_append] at hrest
    rw [countLoop, if_pos hinside, hmeasure, hdata]
    simp only [bind, Except.bind]
    rw [hrest, List.length_cons]
    exact congrArg Except.ok (by omega)

theorem atLoop_flatten (hframed : ∀ item ∈ items, Framed item) (front : List UInt8)
    {fuel n idx : ℕ} (hidx : idx ≤ n) (hfuel : items.length < fuel)
    (hlt : (front ++ items.flatten).length < 2 ^ 63) :
    atLoop (front ++ items.flatten) n fuel front.length idx =
      (items[n - idx]?.map Rlp.mk).elim (.error .itemCountMismatch) Except.ok := by
  induction items generalizing front fuel idx with
  | nil =>
    obtain ⟨fuel,rfl⟩ := Nat.exists_eq_add_one_of_ne_zero (Nat.ne_of_gt hfuel)
    have hstop : ¬ front.length < (front ++ ([] : List (List UInt8)).flatten).length := by simp
    rw [atLoop, if_neg hstop]
    rfl
  | cons item items ih =>
    obtain ⟨fuel,rfl⟩ := Nat.exists_eq_add_one_of_ne_zero (Nat.ne_of_gt (Nat.zero_lt_of_lt hfuel))
    obtain ⟨hinside,hmeasure⟩ := itemLength_flatten hframed hlt
    have hdata : front ++ (item :: items).flatten = (front ++ item) ++ items.flatten := by simp
    rw [atLoop, if_pos hinside, hmeasure]
    simp only [bind, Except.bind]
    by_cases hn : idx = n
    · have hslice := slice_append front item items.flatten
      rw [if_pos hn, hdata, hslice, hn, Nat.sub_self]
      rfl
    · have hrest := ih (fun i hi => hframed i (List.mem_cons_of_mem _ hi)) (front ++ item)
        (by omega : idx + 1 ≤ n) (Nat.lt_of_succ_lt_succ hfuel) (hdata ▸ hlt)
      have hnext : n - idx = (n - (idx + 1)) + 1 := by omega
      rw [List.length_append] at hrest
      rw [if_neg hn, hdata, hrest, hnext, List.getElem?_cons_succ]

/-- The items of a list are counted one by one. -/
theorem itemCount_list (hframed : ∀ item ∈ items, Framed item)
    (hlt : items.flatten.length < 2 ^ 63) : itemCount ⟨listBytes items.flatten⟩ = .ok items.length := by
  have hpayload := listPayload_list hlt []
  have hcount := countLoop_flatten hframed [] 0
    (Nat.lt_succ_of_le (length_le_flatten hframed)) (by simpa using hlt)
  have hlist := isList_list hlt
  rw [List.append_nil] at hpayload
  rw [List.nil_append, List.length_nil, Nat.zero_add] at hcount
  cases hbytes : listBytes items.flatten with
  | nil =>
    rw [hbytes] at hlist
    cases hlist
  | cons b rest =>
    rw [hbytes] at hpayload hlist
    have hb : ¬ b < 0xc0 := by
      have hge : 0xc0 ≤ b := by simpa [isList] using hlist
      exact UInt8.not_lt.mpr hge
    rw [itemCount]
    simp only [if_neg hb, hpayload, bind, Except.bind]
    exact hcount

/-- The item at an index is the one that was written there. -/
theorem itemAt_list (hframed : ∀ item ∈ items, Framed item) (hlt : items.flatten.length < 2 ^ 63)
    (n : ℕ) :
    itemAt ⟨listBytes items.flatten⟩ n =
      (items[n]?.map Rlp.mk).elim (.error .itemCountMismatch) Except.ok := by
  have hpayload := listPayload_list hlt []
  have hat := atLoop_flatten hframed []
    (Nat.zero_le n) (Nat.lt_succ_of_le (length_le_flatten hframed)) (by simpa using hlt)
  rw [List.append_nil] at hpayload
  rw [itemAt, hpayload]
  exact hat

end Loops

theorem framed_rlp (item : RlpItem) : Framed item.rlp := by
  cases item with
  | bytes data => exact framed_string data
  | list items => exact framed_list (rlpAll items)

theorem mapM_range_eq {α β : Type} {f : ℕ → Option β} {g : α → Option β} (items : List α)
    (start : ℕ) (h : ∀ i item, items[i]? = some item → f (start + i) = g item) :
    (List.range' start items.length).mapM f = items.mapM g := by
  induction items generalizing start with
  | nil => rfl
  | cons item items ih =>
    have hhead := h 0 item rfl
    have htail := ih (start + 1) (fun i x hx => by
      have hnext := h (i + 1) x (by simpa using hx)
      rwa [Nat.add_comm i 1, ← Nat.add_assoc] at hnext)
    rw [Nat.add_zero] at hhead
    rw [List.length_cons, List.range'_succ, List.mapM_cons, List.mapM_cons, hhead, htail]

theorem readItem_rlp {fuel : ℕ} {item : RlpItem} (hheight : item.height ≤ fuel)
    (hlt : item.rlp.length < 2 ^ 63) : readItem fuel ⟨item.rlp⟩ = some item := by
  induction fuel generalizing item with
  | zero =>
    cases item with
    | bytes data => simp [height] at hheight
    | list items => simp [height] at hheight
  | succ fuel ih =>
    cases item with
    | bytes data =>
      have hdata : data.length < 2 ^ 63 := lt_of_le_of_lt (length_le_stringBytes data) hlt
      rw [rlp, readItem, isList_string hdata, asBytes_string hdata]
      rfl
    | list items =>
      have hframed : ∀ e ∈ items.map RlpItem.rlp, Framed e := by
        intro e he
        obtain ⟨item,-,rfl⟩ := List.mem_map.mp he
        exact framed_rlp item
      rw [rlp, rlpAll_eq] at hlt
      have hpayload : (items.map RlpItem.rlp).flatten.length < 2 ^ 63 :=
        lt_trans (length_lt_listBytes _) hlt
      have hread : ∀ i item, items[i]? = some item →
          (itemAt ⟨listBytes (items.map RlpItem.rlp).flatten⟩ (0 + i)).toOption.bind
            (readItem fuel) = some item := by
        intro i item hi
        have hmem := List.mem_of_getElem? hi
        have hle : item.rlp.length ≤ (items.map RlpItem.rlp).flatten.length :=
          (List.sublist_flatten_of_mem (List.mem_map_of_mem hmem)).length_le
        have hat : itemAt ⟨listBytes (items.map RlpItem.rlp).flatten⟩ i = .ok ⟨item.rlp⟩ := by
          rw [itemAt_list hframed hpayload, List.getElem?_map, hi]
          rfl
        have hitem : readItem fuel ⟨item.rlp⟩ = some item := ih (by
          have := height_le_heights hmem
          rw [height] at hheight
          omega) (by omega)
        rw [Nat.zero_add, hat]
        exact hitem
      rw [rlp, rlpAll_eq, readItem, isList_list hpayload, itemCount_list hframed hpayload,
        List.length_map]
      have hitems : (List.range items.length).mapM (fun i =>
          (itemAt ⟨listBytes (items.map RlpItem.rlp).flatten⟩ i).toOption.bind (readItem fuel)) =
            some items := by
        rw [List.range_eq_range', mapM_range_eq items 0 hread]
        exact List.mapM_pure.trans (congrArg some (List.map_id' items))
      exact congrArg (fun read => read.bind (fun items => some (RlpItem.list items))) hitems

example : readItem 3 ⟨(RlpItem.list [.bytes [0x7f], .list [], .bytes [0x80, 0]]).rlp⟩ =
    some (.list [.bytes [0x7f], .list [], .bytes [0x80, 0]]) := by
  rfl

end Rlp

end ZbxChain
