import RadioSim.Process.Machine

/-! # The main thread

`main` of `main.c` with `worker_pool_create`, `worker_pool_destroy`,
`transport_create` and `transport_destroy`, for a pool of `W` workers.
-/
namespace RadioSim.Process.Main

def radioControlDefaultIntervalMs : UInt32 := 1000
def workerPoolDefaultSize : ℕ := 3

/-- `started` is the `thread_count` of the pool. -/
inductive Pc
  | sigmask
  | pubsubCreate
  | createIngest (context : Bool)
  | createControl (context ingest : Bool)
  | initControl (context ingest : Bool)
  | poolCreate (context ingest control : Bool)
  | poolThreads (control : Bool)
  | workerArgs (control : Bool) (i : ℕ)
  | workerSpawn (control : Bool) (i : ℕ)
  | poolDone (control : Bool) (started : ℕ)
  | transportSocket (started : ℕ)
  | transportSpawn (started : ℕ)
  | createTelemetry (started : ℕ)
  | createAlerts (started : ℕ) (telemetry : Bool)
  | subscribeTelemetry (started : ℕ)
  | subscribeAlerts (started : ℕ)
  | spawnProducer (started : ℕ)
  | spawnConsumer (started : ℕ)
  | sigwait (started : ℕ)
  | requestShutdown (started : ℕ)
  | shutdownIngest (started : ℕ)
  | shutdownTelemetry (started : ℕ)
  | shutdownAlerts (started : ℕ)
  | joinProducer (started : ℕ)
  | joinWorkers (started i : ℕ)
  | joinConsumer
  | unsubscribeTelemetry
  | unsubscribeAlerts
  | destroyTelemetry
  | destroyAlerts
  | joinTransport
  | destroyIngest
  | finish
  | failed
  | exited

def code (W : ℕ) : Pc → Op Pc
  | .sigmask => .choose fun ok => if ok then .pubsubCreate else .failed
  | .pubsubCreate => .choose fun ok => .createIngest ok
  | .createIngest context => .queueCreate .ingest fun ok => .createControl context ok
  | .createControl context ingest => .choose fun ok =>
    if ok then .initControl context ingest else .poolCreate context ingest false
  | .initControl context ingest =>
    .setInterval radioControlDefaultIntervalMs (.poolCreate context ingest true)
  | .poolCreate context ingest control =>
    if context && ingest then .choose fun ok => if ok then .poolThreads control else .failed
    else .tau .failed
  | .poolThreads control => .choose fun ok => if ok then .workerArgs control 0 else .failed
  | .workerArgs control i =>
    if i < W then .choose fun ok => if ok then .workerSpawn control i else .poolDone control i
    else .tau (.poolDone control i)
  | .workerSpawn control i => .spawn (.worker i) fun ok =>
    if ok then .workerArgs control (i + 1) else .poolDone control i
  | .poolDone control started =>
    .tau (if started = 0 then .failed else if control then .transportSocket started else .failed)
  | .transportSocket started => .choose fun ok => if ok then .transportSpawn started else .failed
  | .transportSpawn started => .spawn .transport fun ok =>
    if ok then .createTelemetry started else .failed
  | .createTelemetry started => .queueCreate .consumerTelemetry fun ok => .createAlerts started ok
  | .createAlerts started telemetry => .queueCreate .consumerAlerts fun ok =>
    if telemetry && ok then .subscribeTelemetry started else .failed
  | .subscribeTelemetry started => .subscribe topicTelemetry .consumerTelemetry fun ok =>
    if ok then .subscribeAlerts started else .failed
  | .subscribeAlerts started => .subscribe topicAlerts .consumerAlerts fun ok =>
    if ok then .spawnProducer started else .failed
  | .spawnProducer started => .spawn .producer fun ok => if ok then .spawnConsumer started else .failed
  | .spawnConsumer started => .spawn .consumer fun ok => if ok then .sigwait started else .failed
  | .sigwait started => .tau (.requestShutdown started)
  | .requestShutdown started => .shutdownRequest (.shutdownIngest started)
  | .shutdownIngest started => .queueShutdown .ingest (.shutdownTelemetry started)
  | .shutdownTelemetry started => .queueShutdown .consumerTelemetry (.shutdownAlerts started)
  | .shutdownAlerts started => .queueShutdown .consumerAlerts (.joinProducer started)
  | .joinProducer started => .join .producer (.joinWorkers started 0)
  | .joinWorkers started i =>
    if i < started then .join (.worker i) (.joinWorkers started (i + 1)) else .tau .joinConsumer
  | .joinConsumer => .join .consumer .unsubscribeTelemetry
  | .unsubscribeTelemetry => .unsubscribe topicTelemetry .consumerTelemetry .unsubscribeAlerts
  | .unsubscribeAlerts => .unsubscribe topicAlerts .consumerAlerts .destroyTelemetry
  | .destroyTelemetry => .queueDestroy .consumerTelemetry .destroyAlerts
  | .destroyAlerts => .queueDestroy .consumerAlerts .joinTransport
  | .joinTransport => .join .transport .destroyIngest
  | .destroyIngest => .queueDestroy .ingest .finish
  | .finish => .exit .exited
  | .failed => .exit .exited
  | .exited => .exit .exited

end RadioSim.Process.Main
