import StreamBridge.Classify

/-!
# StreamBridge.Boot

The two boot-up datagrams reach one socket, and the main server tells them apart by the order of
its two calls of `getList`; the sender's address goes into a copy of the `Server` argument. A
backend sends all its names in one datagram, of which `getList` keeps the first 1024 bytes.

* `bootUp_getList`: what a backend sends at boot is read back as the names of its records.
* `boot_list_complete`: the list is complete exactly when the names and their spaces take at most
  1024 bytes.
* `bootUp_arrivals`: the first list becomes server A's, whoever sent it.
* `boot_attribution`: the lists are attributed rightly exactly when server A's datagram is first
  or both files hold the same names.
-/

namespace StreamBridge

open CString

/-- The two datagrams in the order in which the main server receives them. -/
def arrivals (first : ServerId) (fromA fromB : Bytes) : Bytes × Bytes :=
  match first with
  | .A => (fromA, fromB)
  | .B => (fromB, fromA)

/-- Each list of the main server is that of its backend, and every name some backend stores is
routed to a backend that stores it. -/
structure Attributed (tA tB : List User) (s : MainServer) : Prop where
  serverA : s.serverA = Backend.getName tA
  serverB : s.serverB = Backend.getName tB
  routedA : ∀ request, ∀ name ∈ s.foundA request, ∃ u ∈ tA, u.name = name
  routedB : ∀ request, ∀ name ∈ s.foundB request, ∃ u ∈ tB, u.name = name
  existing : ∀ request, ∀ name ∈ request, (∃ u ∈ tA ++ tB, u.name = name) →
    name ∈ s.foundA request ∨ name ∈ s.foundB request

theorem attributed_of_lists {tA tB : List User} {s : MainServer}
    (hA : s.serverA = Backend.getName tA) (hB : s.serverB = Backend.getName tB) :
    Attributed tA tB s where
  serverA := hA
  serverB := hB
  routedA request name hname := by
    have hmem := (MainServer.mem_foundA.mp hname).2
    rw [hA] at hmem
    exact List.mem_map.mp hmem
  routedB request name hname := by
    have hmem := (MainServer.mem_foundB.mp hname).2.2
    rw [hB] at hmem
    exact List.mem_map.mp hmem
  existing request name hname hexists := by
    rw [MainServer.mem_foundA, MainServer.mem_foundB, hA, hB]
    obtain ⟨u, hu, rfl⟩ := hexists
    by_cases hmem : u.name ∈ Backend.getName tA
    · exact .inl ⟨hname, hmem⟩
    · rcases List.mem_append.mp hu with hu | hu
      · exact absurd (List.mem_map_of_mem hu) hmem
      · exact .inr ⟨hname, hmem, List.mem_map_of_mem hu⟩

theorem bootUp_names {file datagram : Bytes} {b : Backend}
    (h : Backend.bootUp file = some (b, datagram))
    (hnames : ∀ u ∈ b.list, u.name ≠ [] ∧ space ∉ u.name) :
    datagram = getNameStr (Backend.getName b.list) ∧
      ∀ name ∈ Backend.getName b.list, IsWord space name := by
  simp only [Backend.bootUp, Option.bind_eq_bind, Option.bind_eq_some_iff] at h
  obtain ⟨list, hread, hboot⟩ := h
  cases hboot
  refine ⟨rfl, ?_⟩
  intro name hname
  obtain ⟨u, hu, rfl⟩ := List.mem_map.mp hname
  exact ⟨(hnames u hu).1, (hnames u hu).2, (isWord_of_readFile hread u hu).noNul⟩

theorem bootUp_getList {file datagram : Bytes} {b : Backend}
    (h : Backend.bootUp file = some (b, datagram))
    (hnames : ∀ u ∈ b.list, u.name ≠ [] ∧ space ∉ u.name) (hlen : datagram.length ≤ 1024) :
    getList datagram = some (Backend.getName b.list) := by
  obtain ⟨rfl, hwords⟩ := bootUp_names h hnames
  exact getList_getNameStr hwords hlen

theorem bootUp_arrivals {dA dB : Bytes} {listA listB : List Bytes} (hA : getList dA = some listA)
    (hB : getList dB = some listB) (first : ServerId) :
    MainServer.bootUp (arrivals first dA dB).1 (arrivals first dA dB).2 =
      match first with
      | .A => some (MainServer.booted listA listB)
      | .B => some (MainServer.booted listB listA) := by
  cases first with
  | A => simp only [MainServer.bootUp, arrivals, hA, hB, Option.bind_eq_bind, Option.bind_some]; rfl
  | B => simp only [MainServer.bootUp, arrivals, hA, hB, Option.bind_eq_bind, Option.bind_some]; rfl

/-- Boot-up attributes the lists rightly exactly when server A's datagram is the first to arrive,
or both files hold the same list of names. -/
theorem boot_attribution (fileA fileB : Bytes) (bA bB : Backend) (dA dB : Bytes)
    (hA : Backend.bootUp fileA = some (bA, dA)) (hB : Backend.bootUp fileB = some (bB, dB))
    (hnames : ∀ u ∈ bA.list ++ bB.list, u.name ≠ [] ∧ space ∉ u.name) (hlenA : dA.length ≤ 1023)
    (hlenB : dB.length ≤ 1023) (first : ServerId) :
    (∃ s, MainServer.bootUp (arrivals first dA dB).1 (arrivals first dA dB).2 = some s ∧
        Attributed bA.list bB.list s) ↔
      first = .A ∨ Backend.getName bA.list = Backend.getName bB.list := by
  have hlistA := bootUp_getList hA (fun u hu => hnames u (List.mem_append_left _ hu))
    (Nat.le_succ_of_le hlenA)
  have hlistB := bootUp_getList hB (fun u hu => hnames u (List.mem_append_right _ hu))
    (Nat.le_succ_of_le hlenB)
  rw [bootUp_arrivals hlistA hlistB]
  cases first with
  | A => exact iff_of_true ⟨_, rfl, attributed_of_lists rfl rfl⟩ (.inl rfl)
  | B =>
    constructor
    · rintro ⟨s, hs, hright⟩
      cases hs
      exact .inr hright.serverA.symm
    · rintro (h | h)
      · cases h
      · exact ⟨_, rfl, attributed_of_lists h.symm h⟩

/-- `a;[[5,9]]` and `b;[[7,12]]`. -/
def sampleFileA : Bytes := [97, 59, 91, 91, 53, 44, 57, 93, 93, 10]
def sampleFileB : Bytes := [98, 59, 91, 91, 55, 44, 49, 50, 93, 93, 10]

theorem bootUp_sampleFiles :
    Backend.bootUp sampleFileA = some (⟨[sampleUserA], [], []⟩, [97, 32]) ∧
      Backend.bootUp sampleFileB = some (⟨[sampleUserB], [], []⟩, [98, 32]) := by
  decide +kernel

theorem boot_attribution_a_first :
    ∃ s, MainServer.bootUp [97, 32] [98, 32] = some s ∧
      Attributed [sampleUserA] [sampleUserB] s :=
  (boot_attribution sampleFileA sampleFileB _ _ _ _ bootUp_sampleFiles.1 bootUp_sampleFiles.2
    (by decide) (by decide) (by decide) .A).mpr (.inl rfl)

/-- When server B's datagram is first, its names are looked up at server A. -/
theorem boot_attribution_b_first :
    ¬ ∀ fileA fileB bA bB dA dB, Backend.bootUp fileA = some (bA, dA) →
      Backend.bootUp fileB = some (bB, dB) →
      (∀ u ∈ bA.list ++ bB.list, u.name ≠ [] ∧ space ∉ u.name) → dA.length ≤ 1023 →
      dB.length ≤ 1023 → ∀ first,
        ∃ s, MainServer.bootUp (arrivals first dA dB).1 (arrivals first dA dB).2 = some s ∧
          Attributed bA.list bB.list s := by
  intro h
  obtain ⟨s, hs, hright⟩ := h sampleFileA sampleFileB _ _ _ _ bootUp_sampleFiles.1
    bootUp_sampleFiles.2 (by decide) (by decide) (by decide) .B
  have hlists : (MainServer.bootUp [98, 32] [97, 32]).map (·.serverA) = some [[98]] := by
    decide +kernel
  have hboot : MainServer.bootUp [98, 32] [97, 32] = some s := hs
  rw [hboot, Option.map_some, hright.serverA] at hlists
  exact absurd hlists (by decide)

/-! ## A list longer than the receive buffer -/

/-- A UDP datagram is delivered whole; one of more than 65507 bytes cannot be sent. -/
def udp (datagram : Bytes) : Option Bytes :=
  if datagram.length ≤ 65507 then some datagram else none

theorem udp_some {datagram received : Bytes} (h : udp datagram = some received) :
    received = datagram := by
  unfold udp at h
  split at h
  · exact (Option.some.inj h).symm
  · cases h

/-- The list that `getList` returned names every user of the backend, in order, so a main server
that holds it for one of its two servers misses none of them. -/
structure Complete (users : List User) (listed : List Bytes) : Prop where
  names : listed = Backend.getName users
  existing : ∀ s : MainServer, s.serverA = listed ∨ s.serverB = listed →
    ∀ request, ∀ u ∈ users, u.name ∉ s.missing request

theorem complete_getName (users : List User) : Complete users (Backend.getName users) where
  names := rfl
  existing s hs request u hu hmissing := by
    obtain ⟨_, hA, hB⟩ := MainServer.mem_missing.mp hmissing
    have hmem : u.name ∈ Backend.getName users := List.mem_map_of_mem hu
    rcases hs with hs | hs
    · exact hA (hs ▸ hmem)
    · exact hB (hs ▸ hmem)

theorem length_bootUp {file datagram : Bytes} {b : Backend}
    (h : Backend.bootUp file = some (b, datagram))
    (hnames : ∀ u ∈ b.list, u.name ≠ [] ∧ space ∉ u.name) :
    datagram.length = (b.list.map fun u => u.name.length + 1).sum := by
  rw [(bootUp_names h hnames).1, length_getNameStr, Backend.getName, List.map_map, List.length_map,
    List.sum_map_add]
  simp [Function.comp_def]

/-- The list the main server takes from a backend's datagram is complete exactly when all its
names, each with a space, fit the receive buffer. -/
theorem boot_list_complete (file : Bytes) (b : Backend) (datagram : Bytes)
    (h : Backend.bootUp file = some (b, datagram))
    (hnames : ∀ u ∈ b.list, u.name ≠ [] ∧ space ∉ u.name) :
    (∃ listed, (udp datagram).bind getList = some listed ∧ Complete b.list listed) ↔
      (b.list.map fun u => u.name.length + 1).sum ≤ 1024 := by
  rw [← length_bootUp h hnames]
  constructor
  · rintro ⟨listed, hlist, hcomplete⟩
    obtain ⟨hdatagram, hwords⟩ := bootUp_names h hnames
    obtain ⟨received, hreceived, hlist⟩ := Option.bind_eq_some_iff.mp hlist
    have hwhole : received = datagram := udp_some hreceived
    by_contra hlong
    rw [hwhole, hcomplete.names, hdatagram] at hlist
    exact getList_cut hwords (by rw [← hdatagram]; omega) hlist
  · intro hlen
    refine ⟨_, ?_, complete_getName b.list⟩
    rw [udp, if_pos (by omega), Option.bind_some]
    exact bootUp_getList h hnames hlen

/-- A file with the lines of both samples. -/
theorem boot_list_complete_sample :
    ∃ listed, (udp [97, 32, 98, 32]).bind getList = some listed ∧
      Complete [sampleUserA, sampleUserB] listed := by
  have hboot : Backend.bootUp (sampleFileA ++ sampleFileB) =
      some (⟨[sampleUserA, sampleUserB], [], []⟩, [97, 32, 98, 32]) := by decide +kernel
  exact (boot_list_complete _ _ _ hboot (by decide)).mpr (by decide)

/-- Twelve records with names of 90 bytes, `[]` for each. -/
def longFile : Bytes :=
  (List.range 12).flatMap fun i =>
    List.replicate 89 97 ++ [98 + UInt8.ofNat i] ++ [59, 91, 93, 10]

/-- The datagram has 1092 bytes, and the twelfth name is cut in the middle and then dropped. -/
theorem boot_list_incomplete :
    ¬ ∀ file b datagram, Backend.bootUp file = some (b, datagram) →
      (∀ u ∈ b.list, u.name ≠ [] ∧ space ∉ u.name) → (Backend.getName b.list).Nodup →
      datagram.length ≤ 65507 →
        ∃ listed, (udp datagram).bind getList = some listed ∧ Complete b.list listed := by
  intro h
  have hrun : (Backend.bootUp longFile).any (fun p =>
      decide (∀ u ∈ p.1.list, u.name ≠ [] ∧ space ∉ u.name) &&
        decide (Backend.getName p.1.list).Nodup && decide (p.2.length = 1092) &&
        decide (((udp p.2).bind getList).map List.length ≠ some p.1.list.length)) = true := by
    decide +kernel
  simp only [Option.any_eq_true, Bool.and_eq_true, decide_eq_true_eq] at hrun
  obtain ⟨⟨b, datagram⟩, hb, ⟨⟨hnames, hnodup⟩, hlen⟩, hlisted⟩ := hrun
  obtain ⟨listed, hlist, hcomplete⟩ := h longFile b datagram hb hnames hnodup
    (by rw [hlen]; decide)
  rw [hlist, Option.map_some, hcomplete.names, Backend.getName, List.length_map] at hlisted
  exact hlisted rfl

end StreamBridge
