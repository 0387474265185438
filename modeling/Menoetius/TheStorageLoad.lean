import Menoetius.CleanerCalls
import Menoetius.StorageKeys
import Menoetius.TheStorageInit

/-
This file follows the start of a whole storage: the trees and the list get the items of both stores.
-/

namespace Menoetius
open LittleEndian

/-- The contents, the trees and the list while the stores are read. Items without a key are placeholders. -/
structure TheStorage.Loading (store : TheStorage) (items placeholders : List IndexItem) : Prop where
  consistent : store.indexes.Consistent items placeholders
  names : store.storage.names.filter (fun name => name.2.isSome) = items.map IndexItem.name
  known : ∀ internalId, internalId ∈ store.storage.names.map Prod.fst ↔
    internalId ∈ (items ++ placeholders).map IndexItem.internalId
  ids : (store.storage.names.map Prod.fst).Nodup
  distinct : ((items ++ placeholders).map IndexItem.internalId).Nodup
  next : store.indexes.nextInternalId = store.storage.nextInternalId

/-- The settings of a storage do not change. -/
structure SameSetup (store after : TheStorage) : Prop where
  storage : SameConfig store.storage after.storage
  indices : after.indexes.indices = store.indexes.indices
  debugBuild : after.indexes.debugBuild = store.indexes.debugBuild

theorem SameSetup.refl (store : TheStorage) : SameSetup store store := ⟨.refl _, rfl, rfl⟩

theorem SameSetup.trans {first second third : TheStorage} (start : SameSetup first second)
    (rest : SameSetup second third) : SameSetup first third :=
  ⟨start.storage.trans rest.storage, rest.indices.trans start.indices, rest.debugBuild.trans start.debugBuild⟩

/-- What a loop of the loader keeps in every round holds at its end. -/
theorem of_loadBlocks {read : Bool → StorageM (Option BlockRead)} {load : BlockRead → TheStorageM Unit}
    {invariant : TheStorage → Prop}
    (reads : ∀ initial store result storage, invariant store → read initial store.storage = .ok result storage →
      invariant { store with storage })
    (loads : ∀ found store after, invariant store → load found store = .ok () after → invariant after) (fuel : Nat) :
    ∀ (initial : Bool) {store after : TheStorage}, invariant store →
      TheStorage.loadBlocks read load fuel initial store = .ok () after → invariant after := by
  induction fuel with
  | zero =>
      intro initial store after holds run
      cases run
      exact holds
  | succ fuel ih =>
      intro initial store after holds run
      obtain ⟨result, middle, got, run⟩ := EStateM.of_bind_ok run
      obtain ⟨storage, found, rfl⟩ := of_onStorage got
      have kept := reads initial store result storage holds found
      cases result with
      | none =>
          cases run
          exact kept
      | some block =>
          obtain ⟨_, next, loaded, rest⟩ := EStateM.of_bind_ok run
          exact ih false (loads block _ next kept loaded) rest

/-- A loop that takes at least one of the blocks that are left in every round takes all of them. -/
theorem of_loadBlocks_all {read : Bool → StorageM (Option BlockRead)} {load : BlockRead → TheStorageM Unit}
    {invariant : List Block → TheStorage → Prop} {done : TheStorage → Prop}
    (ends : ∀ back store storage, invariant back store → read false store.storage = .ok none storage →
      done { store with storage })
    (round : ∀ back store found storage, invariant back store → read false store.storage = .ok (some found) storage →
      ∃ rest, rest.length < back.length ∧
        ∀ after, load found { store with storage } = .ok () after → invariant rest after) (fuel : Nat) :
    ∀ {back : List Block} {store after : TheStorage}, invariant back store → back.length < fuel →
      TheStorage.loadBlocks read load fuel false store = .ok () after → done after := by
  induction fuel with
  | zero =>
      intro back store after _ enough
      cases enough
  | succ fuel ih =>
      intro back store after holds enough run
      obtain ⟨result, middle, got, run⟩ := EStateM.of_bind_ok run
      obtain ⟨storage, found, rfl⟩ := of_onStorage got
      cases result with
      | none =>
          cases run
          exact ends back store storage holds found
      | some block =>
          obtain ⟨_, next, loaded, rest⟩ := EStateM.of_bind_ok run
          obtain ⟨left, fewer, kept⟩ := round back store block storage holds found
          exact ih (kept next loaded) (by omega) rest

section
variable {store after : Storage}

/-- A block of an unknown item makes an item without a key. -/
theorem of_storagePlaceholder {internalId : Nat} (run : storagePlaceholder internalId store = .ok () after) :
    (∃ item ∈ store.items, item.internalId = internalId) ∧ after = store ∨
      (∀ item ∈ store.items, item.internalId ≠ internalId) ∧
        ∃ data, after = { store with items := store.items ++ [⟨internalId, none, data, 0, []⟩] } := by
  unfold storagePlaceholder at run
  rw [EStateM.bind_ok (EStateM.get_apply store)] at run
  cases found : store.items.find? fun item => item.internalId = internalId with
  | some item =>
      rw [found] at run
      cases run
      exact Or.inl ⟨⟨item, List.mem_of_find?_eq_some found, by simpa using List.find?_some found⟩, rfl⟩
  | none =>
      rw [found] at run
      refine Or.inr ⟨?_, of_storageInsertItem_item run⟩
      intro item member
      simpa using List.find?_eq_none.mp found item member

theorem insertOffset_keeps (entry : OffsetAndTime) : KeepsView StorageItem.place (do
    let (offsets, lastBlock) := insertOffset entry (← get).item.dataOffsets
    modify fun state => { state with item := { state.item with dataOffsets := offsets } }
    pure lastBlock : ItemM Bool) := by
  apply keepsView_get.bind
  intro state
  apply KeepsView.bind
  · exact keepsView_modify fun _ => rfl
  · exact fun _ => keepsView_pure _

theorem storageLoadActive_keeps (p dataBuf : List UInt8) :
    KeepsView StorageItem.place (storageLoadActive p dataBuf) :=
  keepsView_get.bind fun _ => (keepsView_ofExcept _).bind fun _ => keepsView_modify fun _ => rfl

/-- One round of the first loop makes an item when there is none, and changes the item one or two times. -/
theorem storageLoadBlock_steps {found : BlockRead} (run : storageLoadBlock found store = .ok () after) :
    ∃ (middle inserted : Storage) (first : ItemM Bool) (lastBlock : Bool),
      storagePlaceholder (valueOf (found.buf.take 8)) store = .ok () middle ∧ KeepsView StorageItem.place first ∧
      onItem (valueOf (found.buf.take 8)) first middle = .ok lastBlock inserted ∧
      (after = inserted ∨ ∃ second : ItemM Unit, KeepsView StorageItem.place second ∧
        onItem (valueOf (found.buf.take 8)) second inserted = .ok () after) := by
  unfold storageLoadBlock at run
  split at run
  · cases run
  · dsimp only at run
    obtain ⟨-, run⟩ := of_require_bind run
    obtain ⟨-, run⟩ := of_require_bind run
    obtain ⟨lastBlock, inserted, insert, run⟩ := EStateM.of_bind_ok run
    obtain ⟨_, middle, placed, insert⟩ := EStateM.of_bind_ok insert
    obtain ⟨-, insert⟩ := of_require_bind insert
    refine ⟨middle, inserted, _, lastBlock, placed, insertOffset_keeps _, insert, ?_⟩
    split at run
    · obtain ⟨-, run⟩ := of_require_bind run
      exact Or.inr ⟨_, storageLoadActive_keeps _ _, run⟩
    · cases run
      exact Or.inl rfl

/-- One round of the first loop leaves the keys of all items as they are. -/
theorem of_storageLoadBlock (ids : (store.items.map StorageItem.internalId).Nodup) {found : BlockRead}
    (run : storageLoadBlock found store = .ok () after) :
    ∃ middle, storagePlaceholder (valueOf (found.buf.take 8)) store = .ok () middle ∧
      SameView StorageItem.place middle after := by
  obtain ⟨middle, inserted, first, lastBlock, placed, keeps, insert, rest⟩ := storageLoadBlock_steps run
  have still : (middle.items.map StorageItem.internalId).Nodup := by
    rcases of_storagePlaceholder placed with ⟨_, rfl⟩ | ⟨unknown, data, rfl⟩
    · exact ids
    · rw [List.map_append, List.nodup_append]
      refine ⟨ids, List.nodup_singleton _, ?_⟩
      intro internalId present other single
      obtain ⟨item, member, rfl⟩ := List.mem_map.mp present
      rw [List.mem_singleton.mp single]
      exact unknown item member
  have same := (onItem_view place_showsId keeps still _).of_ok insert
  refine ⟨middle, placed, ?_⟩
  rcases rest with rfl | ⟨second, again, changed⟩
  · exact same
  · refine same.trans ((onItem_view place_showsId again ?_ _).of_ok changed)
    rw [same.ids place_showsId]
    exact still

/-- The first loop leaves the key store alone. -/
theorem storageLoadBlock_rest (ids : (store.items.map StorageItem.internalId).Nodup) {found : BlockRead}
    (run : storageLoadBlock found store = .ok () after) :
    after = { store with items := after.items, dataDiskStore := after.dataDiskStore } := by
  obtain ⟨middle, held, same⟩ := of_storageLoadBlock ids run
  rw [same.rest]
  rcases of_storagePlaceholder held with ⟨_, rfl⟩ | ⟨_, _, rfl⟩ <;> rfl

end

theorem of_onIndexes_unit {store after : TheStorage} {change : Indexes → Except Failure Indexes}
    (run : TheStorage.onIndexes (fun indexes => do
      let after ← change indexes
      pure ((), after)) store = .ok () after) :
    ∃ indexes, change store.indexes = .ok indexes ∧ after = { store with indexes } := by
  obtain ⟨indexes, changed, same⟩ := of_onIndexes run
  cases made : change store.indexes with
  | ok other =>
      rw [made] at changed
      cases changed
      exact ⟨_, rfl, same⟩
  | error failure =>
      rw [made] at changed
      cases changed

theorem of_newAddress {choose : Indexes → Nat} {store after : TheStorage} {address : Nat}
    (run : TheStorage.newAddress choose store = .ok address after) : after = store ∧ store.indexes.Fresh address := by
  obtain ⟨_, _, start, run⟩ := EStateM.of_bind_ok run
  cases start
  obtain ⟨fresh, ended⟩ := of_require_bind run
  cases ended
  exact ⟨rfl, fresh⟩

section
variable {store after : TheStorage} {items placeholders : List IndexItem} {choose : Indexes → Nat}

/-- Nothing else of the contents matters. -/
theorem TheStorage.Loading.same (loading : store.Loading items placeholders) {storage : Storage}
    (names : storage.names = store.storage.names) (next : storage.nextInternalId = store.storage.nextInternalId) :
    TheStorage.Loading { store with storage } items placeholders where
  consistent := loading.consistent
  names := by rw [names]; exact loading.names
  known := by rw [names]; exact loading.known
  ids := by rw [names]; exact loading.ids
  distinct := loading.distinct
  next := loading.next.trans next.symm

/-- A block gets a placeholder in both views, or in none. -/
theorem TheStorage.Loading.block (loading : store.Loading items placeholders) {found : BlockRead}
    (run : TheStorage.storageLoadBlock choose found store = .ok () after) :
    SameSetup store after ∧
      after.storage = { store.storage with items := after.storage.items, dataDiskStore := after.storage.dataDiskStore } ∧
      ∃ others, after.Loading items others := by
  obtain ⟨_, _, read, run⟩ := EStateM.of_bind_ok run
  obtain ⟨storage, loaded, rfl⟩ := of_onStorage read
  obtain ⟨address, _, new, run⟩ := EStateM.of_bind_ok run
  obtain ⟨rfl, fresh⟩ := of_newAddress new
  obtain ⟨indexes, placed, rfl⟩ := of_onIndexes_unit run
  have ids := loading.ids
  rw [Storage.names_ids] at ids
  obtain ⟨middle, held, same⟩ := of_storageLoadBlock ids loaded
  have names := same.placeNames
  obtain ⟨rest, list⟩ := Indexes.storagePlaceholder_cases loading.consistent fresh placed
  have next : indexes.nextInternalId = store.indexes.nextInternalId := by rw [rest]
  have frame := storageLoadBlock_rest ids loaded
  refine ⟨⟨⟨by rw [frame], by rw [frame]⟩, by rw [rest], by rw [rest]⟩, frame, ?_⟩
  rcases of_storagePlaceholder held with ⟨⟨item, member, here⟩, rfl⟩ | ⟨unknown, data, rfl⟩
  · have kept := loading.same names.names names.next
    rcases list with ⟨_, consistent⟩ | ⟨absent, _⟩
    · exact ⟨placeholders, { kept with consistent := consistent, next := next.trans kept.next }⟩
    · have inside := (loading.known item.internalId).mp (by
        rw [Storage.names_ids]
        exact List.mem_map_of_mem member)
      obtain ⟨other, present, equal⟩ := List.mem_map.mp inside
      exact absurd (equal.trans here) (absent other present)
  · rcases list with ⟨⟨item, member, here⟩, _⟩ | ⟨absent, p, here, consistent⟩
    · have inside := (loading.known item.internalId).mpr (List.mem_map_of_mem member)
      rw [Storage.names_ids] at inside
      obtain ⟨other, present, equal⟩ := List.mem_map.mp inside
      exact absurd (equal.trans here) (unknown other present)
    · have grown : storage.names = store.storage.names ++ [(valueOf (found.buf.take 8), none)] := by
        rw [names.names, Storage.names, List.map_append]
        rfl
      have ids : storage.names.map Prod.fst = store.storage.names.map Prod.fst ++ [valueOf (found.buf.take 8)] := by
        rw [grown, List.map_append]
        rfl
      have outside : valueOf (found.buf.take 8) ∉ store.storage.names.map Prod.fst := by
        intro member
        rw [Storage.names_ids] at member
        obtain ⟨other, present, equal⟩ := List.mem_map.mp member
        exact unknown other present equal
      have order : (items ++ p :: placeholders).Perm (p :: (items ++ placeholders)) := List.perm_middle
      refine ⟨p :: placeholders,
        { consistent
          names := ?_
          known := ?_
          ids := ?_
          distinct := ?_
          next := (next.trans loading.next).trans names.next.symm }⟩
      · dsimp only
        rw [grown, List.filter_append, loading.names]
        simp
      · intro internalId
        dsimp only
        rw [ids, List.mem_append, List.mem_singleton, loading.known internalId, (order.map _).mem_iff, List.map_cons,
          List.mem_cons, here]
        exact or_comm
      · dsimp only
        rw [ids]
        refine List.nodup_append.mpr ⟨loading.ids, List.nodup_singleton _, ?_⟩
        intro internalId member other single same
        rw [same, List.mem_singleton.mp single] at member
        exact outside member
      · refine (order.map _).nodup_iff.mpr (List.nodup_cons.mpr ⟨?_, loading.distinct⟩)
        rw [here, ← loading.known]
        exact outside

/-- A key goes to its item in both views, or has none in both. -/
theorem TheStorage.Loading.key (loading : store.Loading items placeholders) {front rest : List Block} {block : Block}
    (passed : KeysPassed front (block :: rest) store.storage)
    (pos : store.storage.keyDiskStore.fd.pos = storageInitialReserved + spanOf front + block.span) (live : block.Live)
    (run : TheStorage.storageLoadKey choose (block.readAt (storageInitialReserved + spanOf front)) store =
      .ok () after) :
    SameSetup store after ∧
      ∃ left more others, KeyRound front rest block store.storage left after.storage ∧ after.Loading more others := by
  obtain ⟨_, _, read, run⟩ := EStateM.of_bind_ok run
  obtain ⟨storage, loaded, rfl⟩ := of_onStorage read
  obtain ⟨address, _, new, run⟩ := EStateM.of_bind_ok run
  obtain ⟨rfl, fresh⟩ := of_newAddress new
  obtain ⟨indexes, attached, rfl⟩ := of_onIndexes_unit run
  change store.indexes.storageLoadKey (blockKey block) (blockKeyId block) address = _ at attached
  obtain ⟨left, round⟩ := (storageLoadKey_round passed pos live).of_ok loaded
  obtain ⟨valid, small, _⟩ := passed.loadable.readable _ _ (blockAt_here front rest block) live
  rw [Indexes.storageLoadKey] at attached
  split at attached
  · cases attached
  have started := loading.consistent.with_next (if store.indexes.nextInternalId ≤ blockKeyId block then
    (blockKeyId block + 1) % 2 ^ 64 else store.indexes.nextInternalId)
  obtain ⟨same, list⟩ := Indexes.storageAttachKeyToItem_cases started valid fresh attached
  have next : indexes.nextInternalId = store.storage.counted (blockKeyId block) := by
    rw [same, Storage.counted, ← loading.next]
    dsimp only
    rw [Nat.mod_eq_of_lt (by omega)]
  have config : SameConfig store.storage storage := by
    have data := round.sameData
    constructor <;> rw [data]
  refine ⟨⟨config, by rw [same], by rw [same]⟩, ?_⟩
  cases round with
  | @attach item member here =>
      have inside := (loading.known item.internalId).mp (by
        rw [Storage.names_ids]
        exact List.mem_map_of_mem member)
      rcases list with ⟨absent, _⟩ | ⟨before, p, behind, new, rfl, numbered, consistent, named, id⟩
      · obtain ⟨other, present, equal⟩ := List.mem_map.mp inside
        exact absurd (equal.trans here) (absent other present)
      have names : (store.storage.attached item (blockKey block) (storageInitialReserved + spanOf front)).names =
          (store.storage.names.filter fun name => name.1 ≠ item.internalId) ++
            [(item.internalId, some (blockKey block))] := by
        rw [Storage.names, Storage.attached, List.map_append, Storage.names, List.filter_map]
        rfl
      have unnamed : ∀ name ∈ store.storage.names, name.2.isSome = true → name.1 ≠ item.internalId := by
        intro name present some equal
        obtain ⟨other, there, rfl⟩ := List.mem_map.mp present
        have none := passed.unnamed live there (equal.trans here)
        dsimp only at some
        rw [none] at some
        cases some
      have order : (items ++ (before ++ p :: behind)).Perm (p :: (items ++ (before ++ behind))) := by
        rw [← List.append_assoc, ← List.append_assoc]
        exact List.perm_middle
      have order' : (items ++ [new] ++ (before ++ behind)).Perm (new :: (items ++ (before ++ behind))) := by
        rw [List.append_assoc]
        exact List.perm_middle
      have ids : ((items ++ [new] ++ (before ++ behind)).map IndexItem.internalId).Perm
          ((items ++ (before ++ p :: behind)).map IndexItem.internalId) := by
        refine (order'.map _).trans (.trans ?_ (order.map _).symm)
        rw [List.map_cons, List.map_cons, id, numbered]
      refine ⟨block, items ++ [new], before ++ behind, .attach member here,
        { consistent
          names := ?_
          known := ?_
          ids := ?_
          distinct := ids.nodup_iff.mpr loading.distinct
          next := by rw [next, ← here]; rfl }⟩
      · dsimp only
        have keep : (store.storage.names.filter fun name => name.2.isSome && decide (name.1 ≠ item.internalId)) =
            store.storage.names.filter fun name => name.2.isSome := by
          apply List.filter_congr
          intro name present
          cases some : name.2.isSome with
          | false => rfl
          | true => exact decide_eq_true (unnamed name present some)
        rw [names, List.filter_append, List.filter_filter, keep, loading.names, List.map_append, List.map_singleton,
          IndexItem.name, named, id, here]
        rfl
      · intro internalId
        dsimp only
        rw [ids.mem_iff, ← loading.known, names, List.map_append, List.mem_append, List.map_singleton,
          List.mem_singleton]
        constructor
        · rintro (other | rfl)
          · obtain ⟨name, present, rfl⟩ := List.mem_map.mp other
            exact List.mem_map_of_mem (List.mem_of_mem_filter present)
          · exact (loading.known _).mpr inside
        · intro present
          by_cases equal : internalId = item.internalId
          · exact Or.inr equal
          · obtain ⟨name, there, rfl⟩ := List.mem_map.mp present
            exact Or.inl (List.mem_map_of_mem (List.mem_filter.mpr ⟨there, decide_eq_true equal⟩))
      · rw [Storage.names_ids]
        exact (passed.attach live member here).ids
  | @release empty disk absent held quiet status pool =>
      rcases list with ⟨_, consistent⟩ | ⟨before, p, behind, new, rfl, numbered, _⟩
      · exact ⟨left, items, placeholders, .release absent held quiet status pool,
          { consistent
            names := loading.names
            known := loading.known
            ids := loading.ids
            distinct := loading.distinct
            next := next }⟩
      · have inside := (loading.known p.internalId).mpr (List.mem_map_of_mem (by simp))
        rw [Storage.names_ids] at inside
        obtain ⟨other, present, equal⟩ := List.mem_map.mp inside
        exact absurd (equal.trans numbered) (absent other present)

end

end Menoetius
