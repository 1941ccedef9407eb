import RadioSim.Process.Lifetime
import RadioSim.Pubsub.Fanout

/-! # What the queues carry

The ingest queue holds raw messages, every telemetry queue telemetry messages and
every alerts queue alert messages, whose codes are texts without a line break.
-/
namespace RadioSim.Process
open Pubsub Queue

def CodeBuffer.Clean (code : CodeBuffer) : Prop := 10 ∉ code.text.bytes

def Fits : QueueId → Item → Prop
  | .ingest, item =>
    (item.type = .telemetry ∧ ∃ raw, Item.content item = some (.telemetryRaw raw)) ∨
    (item.type = .alert ∧ ∃ raw, Item.content item = some (.alertRaw raw) ∧ raw.code.Clean)
  | .consumerTelemetry, item | .connTelemetry _, item => ∃ msg, Item.content item = some (.telemetryMsg msg)
  | .consumerAlerts, item | .connAlerts _, item =>
    ∃ msg, Item.content item = some (.alertMsg msg) ∧ msg.code.Clean

theorem copy_clean {text : CString} (h : 10 ∉ text.bytes) : (CodeBuffer.copy text).Clean := by
  unfold CodeBuffer.Clean CodeBuffer.text CodeBuffer.copy
  rw [CString.ofBuffer_strncpy]
  exact fun hmem => h (List.mem_of_mem_take hmem)

theorem telemetryItem_fits (counter : UInt32) (a : Addr) : Fits .ingest (Producer.telemetryItem counter a) :=
  Or.inl ⟨rfl,_,rfl⟩

theorem alertItem_fits (counter : UInt32) (a : Addr) : Fits .ingest (Producer.alertItem counter a) := by
  refine Or.inr ⟨rfl,_,rfl,copy_clean ?_⟩
  unfold Producer.alertCode
  split <;> decide

/-- The codes of triggered alerts are single words. -/
theorem scanAlert_clean {args : Bytes} {code : CString} {antenna : UInt32}
    (h : Command.scanAlert args = some (code,antenna)) : 10 ∉ code.bytes := by
  unfold Command.scanAlert at h
  split at h
  · cases h
  · rename_i word rest hword
    obtain ⟨antenna',_,heq⟩ := Option.map_eq_some_iff.mp h
    cases heq
    intro hmem
    have hspace := ((scanWord_spec hword).2.2 10 ((List.takeWhile_prefix _).subset hmem)).2
    exact absurd hspace (by decide)

theorem applyCommand_clean {line code : CString} {antenna : UInt32}
    (h : Command.applyCommand line = .triggerAlert code antenna) : 10 ∉ code.bytes := by
  obtain ⟨args,_,hscan⟩ := Command.applyCommand_alert h
  exact scanAlert_clean hscan

theorem pubItem_fits {raw : Item} (hraw : Fits .ingest raw) {q : QueueId}
    (hq : q.topic = some (Worker.topicOf raw.type)) (seq : UInt32) (ts : Int64) :
    Fits q (Worker.pubItem raw seq ts) := by
  have hne : topicTelemetry ≠ topicAlerts := by decide
  rcases hraw with ⟨htype,r,hr⟩ | ⟨htype,r,hr,hclean⟩
  · rw [htype] at hq
    have hpub : Item.content (Worker.pubItem raw seq ts) =
        some (.telemetryMsg ⟨seq,ts,(asTelemetryRaw raw).batteryPct,(asTelemetryRaw raw).rssiDbm⟩) := by
      simp [Worker.pubItem, htype, Item.content]
    cases q with
    | ingest => cases hq
    | consumerTelemetry | connTelemetry n => exact ⟨_,hpub⟩
    | consumerAlerts | connAlerts n => exact absurd (Option.some.inj hq).symm hne
  · rw [htype] at hq
    have hpub : Item.content (Worker.pubItem raw seq ts) =
        some (.alertMsg ⟨seq,ts,(asAlertRaw raw).code,(asAlertRaw raw).antenna⟩) := by
      simp [Worker.pubItem, htype, Item.content]
    have hread : asAlertRaw raw = r := by simp only [asAlertRaw, hr]
    rw [hread] at hpub
    cases q with
    | ingest => cases hq
    | consumerTelemetry | connTelemetry n => exact absurd (Option.some.inj hq) hne
    | consumerAlerts | connAlerts n => exact ⟨_,hpub,hclean⟩

/-- What an item carries is seen in its view. -/
theorem fits_of_view {q : QueueId} {item item' : Item} (h : item'.view = item.view) (hfits : Fits q item) :
    Fits q item' := by
  have htype : item'.type = item.type := congrArg View.type h
  have hcontent : Item.content item' = Item.content item := congrArg View.content h
  cases q <;> simp only [Fits, htype, hcontent] at hfits ⊢ <;> exact hfits

section Effects
variable {P : Type} {t : Tid} {sh sh' : Shared} {op : Op P} {p : P} {K : QueueId → Item → Prop}

def Op.offers : Op P → Option (QueueId × Item)
  | .enqueue q item _ | .tryEnqueue q item _ | .deliver q item _ => some (q,item)
  | _ => none

def Op.takes : Op P → Option QueueId
  | .dequeue q _ | .tryDequeue q _ => some q
  | _ => none

def Op.remakes : Op P → Option QueueId
  | .queueCreate q _ | .queueDestroy q _ => some q
  | _ => none

theorem cloneItem_keeps {item clone : Item} {ok : Bool} {h h' : Heap}
    (hclone : cloneItem item ok h = some (clone,h')) : clone.view = item.view := by
  cases ok with
  | true =>
    obtain ⟨clone',h'',hsome,hview⟩ := cloneItem_view item h
    cases hsome.symm.trans hclone
    exact hview
  | false =>
    unfold cloneItem at hclone
    split at hclone
    · cases hclone
      rfl
    · split at hclone
      · cases hclone
      · cases hclone
        rfl

theorem deliver_contents (item : Item) (ok : Bool) (r : RingQueue Item) (h : Heap) :
    (deliver item ok r h).2.1.contents = r.contents ∨
    ∃ clone, MsgItem.view clone = item.view ∧ (deliver item ok r h).2.1.contents = r.contents ++ [clone] := by
  unfold deliver
  split
  · exact Or.inl rfl
  · rename_i clone h' hclone
    have hcontents : (r.tryEnqueue clone).2.contents = r.contents ∨
        ∃ x, MsgItem.view x = item.view ∧ (r.tryEnqueue clone).2.contents = r.contents ++ [x] := by
      rw [RingQueue.tryEnqueue_contents]
      cases r.full
      · exact Or.inr ⟨clone,cloneItem_keeps hclone,rfl⟩
      · exact Or.inl rfl
    generalize r.tryEnqueue clone = e at hcontents
    obtain ⟨ok,r'⟩ := e
    cases ok
    · dsimp only
      split
      · exact hcontents
      · split <;> exact hcontents
    · exact hcontents

def Shared.takenFrom (sh : Shared) (q : QueueId) : List Item :=
  sh.taken.filterMap fun x => if x.1 = q then some x.2 else none

theorem takenFrom_takeFrom {q' : QueueId} {r : RingQueue Item} (q : QueueId) :
    (sh.takeFrom q' r.tryDequeue).takenFrom q =
      sh.takenFrom q ++ if q = q' then r.contents.head?.toList else [] := by
  simp only [Shared.takenFrom, Shared.takeFrom, List.filterMap_append, RingQueue.tryDequeue_fst]
  congr 1
  by_cases hq : q = q'
  · subst hq
    cases r.contents.head? <;> simp
  · cases r.contents.head? <;> simp [hq, Ne.symm hq]

/-- What an operation can do to the content of a queue, and to the history of what was
taken from it. -/
theorem Effect.contents (h : Effect t sh op p sh') (q : QueueId) :
    (sh'.contents q = sh.contents q ∧ sh'.takenFrom q = sh.takenFrom q) ∨
    (∃ offered item, op.offers = some (q,offered) ∧ sh'.contents q = sh.contents q ++ [item] ∧
      sh'.takenFrom q = sh.takenFrom q ∧ item.view = offered.view) ∨
    (op.takes = some q ∧ sh'.contents q = (sh.contents q).tail ∧
      sh'.takenFrom q = sh.takenFrom q ++ (sh.contents q).head?.toList) ∨
    (op.remakes = some q ∧ sh'.contents q = [] ∧ sh'.takenFrom q = sh.takenFrom q) := by
  cases h with
  | queueCreated q' k =>
    by_cases hq : q = q'
    · subst hq
      exact Or.inr (Or.inr (Or.inr ⟨rfl,by rw [contents_setLive]; rfl,rfl⟩))
    · exact Or.inl ⟨contents_setQueue_of_ne sh hq _,rfl⟩
  | queueDestroyed q' next r hr =>
    by_cases hq : q = q'
    · subst hq
      exact Or.inr (Or.inr (Or.inr ⟨rfl,contents_setDestroyed sh q,rfl⟩))
    · exact Or.inl ⟨contents_setQueue_of_ne sh hq _,rfl⟩
  | queueShutdown q' next r hr =>
    refine Or.inl ⟨?_,rfl⟩
    by_cases hq : q = q'
    · subst hq
      rw [contents_setLive, contents_of_ring hr, RingQueue.shutdown_contents]
    · exact contents_setQueue_of_ne sh hq _
  | enqueue q' item k r hr _ | tryEnqueue q' item k r hr =>
    by_cases hq : q = q'
    · subst hq
      rw [contents_setLive, contents_of_ring hr, RingQueue.tryEnqueue_contents]
      cases r.full
      · exact Or.inr (Or.inl ⟨item,item,rfl,rfl,rfl,rfl⟩)
      · exact Or.inl ⟨rfl,rfl⟩
    · exact Or.inl ⟨contents_setQueue_of_ne sh hq _,rfl⟩
  | dequeue q' k r hr _ | tryDequeue q' k r hr =>
    rw [takenFrom_takeFrom]
    by_cases hq : q = q'
    · subst hq
      refine Or.inr (Or.inr (Or.inl ⟨rfl,?_,by rw [if_pos rfl, contents_of_ring hr]⟩))
      rw [contents_of_ring hr, ← RingQueue.tryDequeue_contents]
      exact contents_setLive sh q _
    · exact Or.inl ⟨contents_setQueue_of_ne sh hq _,by rw [if_neg hq, List.append_nil]⟩
  | deliver q' item next r hr ok =>
    by_cases hq : q = q'
    · subst hq
      have hnew : ({ sh.setQueue q (.live (Pubsub.deliver item ok r sh.heap).2.1) with
          heap := (Pubsub.deliver item ok r sh.heap).2.2 } : Shared).contents q =
          (Pubsub.deliver item ok r sh.heap).2.1.contents := contents_setLive sh q _
      rw [hnew, contents_of_ring hr]
      rcases deliver_contents item ok r sh.heap with hsame | ⟨clone,hview,hclone⟩
      · exact Or.inl ⟨hsame,rfl⟩
      · exact Or.inr (Or.inl ⟨item,clone,rfl,hclone,rfl,hview⟩)
    · exact Or.inl ⟨contents_setQueue_of_ne sh hq _,rfl⟩
  | _ => exact Or.inl ⟨rfl,rfl⟩

/-- What a copy keeps and every offered item has holds of all items in the queues. -/
theorem Effect.stock (h : Effect t sh op p sh')
    (hview : ∀ q item item', MsgItem.view item' = item.view → K q item → K q item')
    (hstock : ∀ q, ∀ item ∈ sh.contents q, K q item)
    (hoffers : ∀ q item, op.offers = some (q,item) → K q item) : ∀ q, ∀ item ∈ sh'.contents q, K q item := by
  intro q x hx
  rcases h.contents q with ⟨hsame,_⟩ | ⟨offered,item,hoffer,hmore,_,hitem⟩ | ⟨_,htail,_⟩ | ⟨_,hnone,_⟩
  · exact hstock q x (hsame ▸ hx)
  · rw [hmore] at hx
    rcases List.mem_append.mp hx with hold | hnew
    · exact hstock q x hold
    · rw [List.mem_singleton.mp hnew]
      exact hview q offered item hitem (hoffers q offered hoffer)
  · exact hstock q x (List.mem_of_mem_tail (htail ▸ hx))
  · rw [hnone] at hx
    cases hx

theorem takeFrom_taken {q : QueueId} {r : RingQueue Item} (hr : sh.ring q = some r) {x : QueueId × Item}
    (hx : x ∈ (sh.takeFrom q r.tryDequeue).taken) : x ∈ sh.taken ∨ x.2 ∈ sh.contents x.1 := by
  rcases List.mem_append.mp hx with hold | hnew
  · exact Or.inl hold
  · obtain ⟨item,hitem,rfl⟩ := List.mem_map.mp hnew
    rw [RingQueue.tryDequeue_fst, Option.mem_toList] at hitem
    right
    rw [contents_of_ring hr]
    exact List.mem_of_mem_head? hitem

theorem Effect.taken (h : Effect t sh op p sh') {x : QueueId × Item} (hx : x ∈ sh'.taken) :
    x ∈ sh.taken ∨ x.2 ∈ sh.contents x.1 := by
  cases h with
  | dequeue q k r hr _ | tryDequeue q k r hr => exact takeFrom_taken hr hx
  | _ => exact Or.inl hx

end Effects

section Hands

/-- What a thread has in hand belongs where the thread is going to put it. -/
def InHand : (t : Tid) → Pc t → Prop
  | .worker _, .sequence raw | .worker _, .time raw _ | .worker _, .read raw _ _ | .worker _, .publish raw _ _ =>
    Fits .ingest raw
  | .worker _, .fanOut raw _ _ subscribers =>
    Fits .ingest raw ∧ ∀ q ∈ subscribers, q.topic = some (Worker.topicOf raw.type)
  | .listener _, .allocAlert code _ => 10 ∉ code.bytes
  | .listener _, .enqueueAlert item => Fits .ingest item
  | _, _ => True

inductive Offering : (t : Tid) → Pc t → QueueId → Item → Prop
  | telemetry (counter : UInt32) (a : Addr) :
      Offering .producer (Producer.Pc.enqueueTelemetry counter a) .ingest (Producer.telemetryItem counter a)
  | alert (counter : UInt32) (a : Addr) :
      Offering .producer (Producer.Pc.enqueueAlert counter a) .ingest (Producer.alertItem counter a)
  | triggered (n : ℕ) (item : Item) : Offering (.listener n) (Command.Pc.enqueueAlert item) .ingest item
  | published (i : ℕ) (raw : Item) (seq : UInt32) (ts : Int64) (q : QueueId) (rest : List QueueId) :
      Offering (.worker i) (Worker.Pc.fanOut raw seq ts (q :: rest)) q (Worker.pubItem raw seq ts)

theorem code_offering {W : ℕ} {t : Tid} {pc : Pc t} {q : QueueId} {item : Item}
    (h : (code W t pc).offers = some (q,item)) : Offering t pc q item := by
  cases t with
  | main =>
    change (Main.code W pc).offers = _ at h
    cases pc <;> simp only [Main.code] at h <;> first | cases h | (split at h <;> cases h)
  | producer =>
    change (Producer.code pc).offers = _ at h
    cases pc with
    | enqueueTelemetry counter a =>
      cases h
      exact .telemetry counter a
    | enqueueAlert counter a =>
      cases h
      exact .alert counter a
    | sleep counter totalMs sleptMs =>
      simp only [Producer.code] at h
      split at h <;> cases h
    | _ => cases h
  | worker i =>
    change (Worker.code pc).offers = _ at h
    cases pc with
    | fanOut raw seq ts subscribers =>
      cases subscribers with
      | nil => cases h
      | cons q' rest =>
        cases h
        exact .published i raw seq ts q rest
    | _ => cases h
  | consumer =>
    change (Consumer.code pc).offers = _ at h
    cases pc <;> cases h
  | transport =>
    change (Transport.code pc).offers = _ at h
    cases pc with
    | handshake n hs =>
      rcases Transport.handshake_op n hs with ⟨_,hop,_⟩ | ⟨_,_,hop,_⟩ | ⟨_,hop,_⟩ <;> rw [hop] at h <;> cases h
    | _ =>
      simp only [Transport.code, writeAll] at h
      first | cases h | (split at h <;> cases h)
  | listener n =>
    change (Command.code n pc).offers = _ at h
    cases pc with
    | enqueueAlert item' =>
      cases h
      exact .triggered n item
    | poll buf =>
      simp only [Command.code] at h
      split at h <;> cases h
    | _ => cases h

theorem code_offers {W : ℕ} {t : Tid} {pc : Pc t} (hand : InHand t pc) {q : QueueId} {item : Item}
    (h : (code W t pc).offers = some (q,item)) : Fits q item := by
  cases code_offering h with
  | telemetry counter a => exact telemetryItem_fits counter a
  | alert counter a => exact alertItem_fits counter a
  | triggered n => exact hand
  | published i raw seq ts _ rest => exact pubItem_fits hand.1 (hand.2 q List.mem_cons_self) seq ts

variable {sh sh' : Shared}

theorem worker_inHand {i : ℕ} {pc p : Worker.Pc} (h : Effect (.worker i) sh (Worker.code pc) p sh')
    (hhoused : Housed sh.registry) (hstock : ∀ item ∈ sh.contents .ingest, Fits .ingest item)
    (hand : InHand (.worker i) pc) : InHand (.worker i) p := by
  cases pc with
  | dequeue =>
    cases h with
    | dequeue _ _ r hr _ =>
      cases hhead : r.contents.head? with
      | none => exact trivial
      | some item =>
        refine hstock item ?_
        rw [contents_of_ring hr]
        exact List.mem_of_mem_head? hhead
  | publish raw seq ts =>
    cases h with
    | publishNone => exact trivial
    | publishBegin _ _ _ _ l hl =>
      refine ⟨hand,fun q hq => ?_⟩
      have htopic : Worker.topicOf raw.type = topicTelemetry ∨ Worker.topicOf raw.type = topicAlerts := by
        cases raw.type
        · exact Or.inl rfl
        · exact Or.inr rfl
      have hspec := findOrCreateTopic_spec hhoused.valid (topic_short htopic)
      simp only [hl] at hspec
      rw [hspec.2.subscribers_eq] at hq
      exact hhoused.home _ q (mem_toMap_subscribers.mpr hq)
  | fanOut raw seq ts subscribers =>
    cases subscribers with
    | nil =>
      cases h with
      | publishEnd => exact trivial
    | cons q rest =>
      cases h with
      | deliver => exact ⟨hand.1,fun q' hq => hand.2 q' (List.mem_cons_of_mem q hq)⟩
  | sequence raw | time raw seq | read raw seq ts =>
    apply h.all (I := InHand (.worker i))
    first | exact hand | exact fun _ => hand
  | release raw | done =>
    apply h.all (I := InHand (.worker i))
    exact trivial

theorem listener_inHand {n : ℕ} {pc p : Command.Pc} (h : Effect (.listener n) sh (Command.code n pc) p sh')
    (hand : InHand (.listener n) pc) : InHand (.listener n) p := by
  cases h.listener_follows with
  | triggers line code antenna happly => exact applyCommand_clean happly
  | allocated code antenna a => exact Or.inr ⟨rfl,_,rfl,copy_clean hand⟩
  | _ => exact trivial

end Hands

structure Stocked (s : System) : Prop where
  contents : ∀ q, ∀ item ∈ s.shared.contents q, Fits q item
  taken : ∀ x ∈ s.shared.taken, Fits x.1 x.2
  hands : ∀ t, InHand t (s.pcs t)

section Steps
variable {W : ℕ} {s s' : System} {t : Tid} {c : Choice}

theorem step_stocked (htidy : Tidy s) (h : Stocked s) (hstep : step W s t c = some s') : Stocked s' := by
  obtain ⟨_,p,sh,hexec,rfl⟩ := step_inversion hstep
  have heff := exec_effect hexec
  refine ⟨heff.stock (fun _ _ _ => fits_of_view) h.contents fun q item => code_offers (h.hands t),fun x hx => ?_,fun u => ?_⟩
  · rcases heff.taken hx with hold | hcontents
    · exact h.taken x hold
    · exact h.contents x.1 x.2 hcontents
  · by_cases hu : u = t
    · subst hu
      simp only [Function.update_self]
      cases u with
      | worker i => exact worker_inHand heff htidy.housed (h.contents .ingest) (h.hands (.worker i))
      | listener n => exact listener_inHand heff (h.hands (.listener n))
      | _ => exact trivial
    · simp only [Function.update_of_ne hu]
      exact h.hands u

theorem initial_stocked : Stocked .initial := by
  refine ⟨fun q item h => (by cases h),fun x h => (by cases h),fun t => ?_⟩
  cases t <;> exact trivial

theorem run_stocked (h : Reachable W s) : Tidy s ∧ Stocked s :=
  h.invariant (I := fun s => Tidy s ∧ Stocked s) ⟨initial_tidy,initial_stocked⟩ fun _ _ _ _ hs hstep =>
    ⟨step_tidy hs.1 hstep,step_stocked hs.1 hs.2 hstep⟩

end Steps

end RadioSim.Process
