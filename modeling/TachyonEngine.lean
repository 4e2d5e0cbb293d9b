import TachyonEngine.Gc.PoolRun
import TachyonEngine.Vm.CallRun
import TachyonEngine.Vm.FinalizerRun
import TachyonEngine.Vm.PropertyKeyRanks
import TachyonEngine.Vm.CollectionRun
import TachyonEngine.Vm.WriteAgreement
import TachyonEngine.Vm.WeakCollectionRun
import TachyonEngine.Vm.SessionRun
import TachyonEngine.Vm.SmallBigIntRun
import TachyonEngine.Vm.PromiseRun
import TachyonEngine.Vm.BigIntShiftExact
import TachyonEngine.Bytecode.ReservedBits
import TachyonEngine.Gc.PersistentRootsRun
import TachyonEngine.Vm.HandlerNesting
import TachyonEngine.Bytecode.BuilderRegisters
import TachyonEngine.Vm.PowerOfTwoInteger
import TachyonEngine.Vm.PrototypeChains
import TachyonEngine.Vm.BigIntNumber
import TachyonEngine.Vm.ArrayTransaction
import TachyonEngine.Vm.RejectedDefinition
import TachyonEngine.Vm.ProxyDescriptor
import TachyonEngine.Vm.UriCoding
import TachyonEngine.Vm.DecimalLiteral
import TachyonEngine.Vm.DenseHoles
import TachyonEngine.Vm.Boxing
