import EnzianMemory.ChaseCycle
import EnzianMemory.LatencyTest
import EnzianMemory.Kernels
import EnzianMemory.Barrier
import EnzianMemory.Harness
import EnzianMemory.Handshake
import EnzianMemory.CoreToCore
import EnzianMemory.RoundTrip
import EnzianMemory.Fpi
import EnzianMemory.Arena
import EnzianMemory.Lines
import EnzianMemory.Loader
import EnzianMemory.Store
import EnzianMemory.Queries
import EnzianMemory.Throughput
import EnzianMemory.Footprint
import EnzianMemory.Benchmark
import EnzianMemory.RedisMain
import EnzianMemory.Mem
